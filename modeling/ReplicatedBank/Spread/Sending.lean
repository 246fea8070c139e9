import ReplicatedBank.Spread.Receiving

/-!
# Sending packets

Retransmissions and new packets.  New packets extend the packets of the membership; how many
there can be during one visit of the token follows from how packets are packed into network
packets, which is what the windows count.
-/

namespace Spread

open Program Assembly Distributed.TotalOrder

variable {n : ℕ} {β : Type*}

/-! ## Packing -/

/-- The packets that fit into one network packet. -/
def maxPacked : ℕ := maxPacketSize / sizeofPacketHeader

namespace QueueScat

/-- The bytes that are counted are at least those of the headers. -/
structure Packed (q : QueueScat n β) : Prop where
  headers : sizeofPacketHeader * q.packs.length ≤ q.queuedBytes
  few : q.packs.length ≤ maxPacked

theorem Packed.empty (results : List Bool) :
    (QueueScat.empty results : QueueScat n β).Packed :=
  ⟨Nat.le_refl 0, Nat.zero_le _⟩

/-- How many of the sends to come fail. -/
def failures (q : QueueScat n β) : ℕ := q.results.count false

theorem sent_add_failures (q : QueueScat n β) :
    1 + q.results.tail.count false = q.sent + q.failures := by
  unfold sent failures
  cases q.results with
  | nil => rfl
  | cons b results =>
      cases b
      · simp [Nat.add_comm]
      · simp

theorem sent_le (q : QueueScat n β) : q.sent ≤ 1 := Bool.toNat_le _

/-- Network packets are counted but for those whose send fails, and none holds more packets than
fit. -/
structure Counted (q : QueueScat n β) (out : List (List (Packet n β))) (ret : ℕ)
    (q' : QueueScat n β) : Prop where
  length : out.length + q'.failures = ret + q.failures
  ret_le : ret ≤ out.length
  few : ∀ ps ∈ out, ps.length ≤ maxPacked

theorem Counted.append {q q' q'' : QueueScat n β} {out out' : List (List (Packet n β))}
    {ret ret' : ℕ} (h : Counted q out ret q') (h' : Counted q' out' ret' q'') :
    Counted q (out ++ out') (ret + ret') q'' := by
  have hlen := h.length
  have hlen' := h'.length
  have hret := h.ret_le
  have hret' := h'.ret_le
  refine ⟨?_, ?_, List.forall_mem_append.mpr ⟨h.few, h'.few⟩⟩
  · rw [List.length_append]
    omega
  · rw [List.length_append]
    omega

theorem Counted.failures_le {q q' : QueueScat n β} {out : List (List (Packet n β))} {ret : ℕ}
    (h : Counted q out ret q') : q'.failures ≤ q.failures := by
  have hlen := h.length
  have hret := h.ret_le
  omega

/-- How many packets have left. -/
theorem length_flatten_le {out : List (List (Packet n β))} (h : ∀ ps ∈ out, ps.length ≤ maxPacked) :
    out.flatten.length ≤ maxPacked * out.length := by
  induction out with
  | nil => simp
  | cons ps out ih =>
      have hps := h ps List.mem_cons_self
      have hout := ih fun ps hps ↦ h ps (List.mem_cons_of_mem _ hps)
      rw [List.flatten_cons, List.length_append, List.length_cons, Nat.mul_succ]
      omega

theorem Counted.length_flatten {q q' : QueueScat n β} {out : List (List (Packet n β))} {ret : ℕ}
    (h : Counted q out ret q') : out.flatten.length ≤ maxPacked * (ret + q.failures) :=
  (length_flatten_le h.few).trans (Nat.mul_le_mul_left _ (h.length ▸ Nat.le_add_right _ _))

/-- What waits leaves. -/
theorem netFlushBcast_spec {q : QueueScat n β} (hq : q.Packed) :
    q.netFlushBcast.2.1.flatten = q.packs ∧ q.netFlushBcast.1.packs = [] ∧
      q.netFlushBcast.1.Packed ∧
      Counted q q.netFlushBcast.2.1 q.netFlushBcast.2.2 q.netFlushBcast.1 ∧
      q.netFlushBcast.2.2 ≤ 1 := by
  unfold netFlushBcast
  split
  · next hzero =>
      have hnil : q.packs = [] := by
        have h := hq.headers
        rw [hzero, Nat.le_zero, Nat.mul_eq_zero] at h
        exact List.length_eq_zero_iff.mp (h.resolve_left (by decide))
      exact ⟨hnil.symm, hnil, hq, ⟨rfl, Nat.zero_le _, by simp⟩, Nat.zero_le _⟩
  · exact ⟨by simp, rfl, Packed.empty _,
      ⟨q.sent_add_failures, q.sent_le, by simpa using hq.few⟩, q.sent_le⟩

/-- A packet joins those that wait, or they leave and it waits alone. -/
theorem netQueueBcast_spec [Payload β] {q : QueueScat n β} (hq : q.Packed) (p : Packet n β) :
    (q.netQueueBcast p).2.1.flatten ++ (q.netQueueBcast p).1.packs = q.packs ++ [p] ∧
      (q.netQueueBcast p).1.Packed ∧
      Counted q (q.netQueueBcast p).2.1 (q.netQueueBcast p).2.2 (q.netQueueBcast p).1 ∧
      (q.netQueueBcast p).2.2 ≤ 1 := by
  obtain ⟨hflat, hnil, hpacked, hcount, hle⟩ := netFlushBcast_spec hq
  have hbytes := hpacked.headers
  unfold netQueueBcast
  dsimp only
  split
  · refine ⟨?_, ⟨?_, ?_⟩, { hcount with }, hle⟩
    · simp [hflat, hnil]
    · simp only [hnil, List.nil_append, List.length_singleton]
      omega
    · simp [hnil, maxPacked, maxPacketSize, sizeofPacketHeader]
  · next hfits =>
      have hlen : (q.packs ++ [p]).length = q.packs.length + 1 := by simp
      have hheaders := hq.headers
      simp only [not_or, Nat.not_lt] at hfits
      have hfit := hfits.1
      refine ⟨rfl, ⟨?_, ?_⟩, ⟨rfl, Nat.zero_le _, by simp⟩, Nat.zero_le _⟩
      · simp only [hlen, Nat.mul_succ]
        omega
      · simp only [hlen, maxPacked]
        unfold maxPacketSize sizeofPacketHeader at *
        omega

/-- A packet that is sent again leaves by itself, or it joins those that wait. -/
theorem retransmit_spec [Payload β] {q : QueueScat n β} (hq : q.Packed) (p : Packet n β)
    (alone : Bool) :
    Counted q (if alone then q.netUcast p else q.netQueueBcast p).2.1
        (if alone then q.netUcast p else q.netQueueBcast p).2.2
        (if alone then q.netUcast p else q.netQueueBcast p).1 ∧
      (if alone then q.netUcast p else q.netQueueBcast p).1.Packed ∧
      ((if alone then q.netUcast p else q.netQueueBcast p).2.1.flatten ++
        (if alone then q.netUcast p else q.netQueueBcast p).1.packs).Perm (q.packs ++ [p]) := by
  cases alone with
  | true =>
      have hone : 1 ≤ maxPacked := by decide
      exact ⟨⟨q.sent_add_failures, q.sent_le, by simpa [netUcast] using hone⟩, { hq with },
        List.perm_append_comm⟩
  | false =>
      obtain ⟨hflat, hpacked, hcount, -⟩ := netQueueBcast_spec hq p
      exact ⟨hcount, hpacked, List.Perm.of_eq hflat⟩

end QueueScat

/-! ## Retransmissions -/

variable [Payload β] {log : List (Packet n β)} {d : Daemon n β}

/-- What `Answer_retrans` has done at some point: it has sent packets of the membership, and no
more sends have failed than were to. -/
structure Answers (log : List (Packet n β)) (results : List Bool) (a : Daemon.Answer n β) :
    Prop where
  packed : a.queue.Packed
  packets : ∀ p ∈ a.packets.flatten, p ∈ log
  packs : ∀ p ∈ a.queue.packs, p ∈ log
  failures : a.queue.failures ≤ results.count false

/-- One request. -/
theorem answerRequest_returns {a b seq : ℕ} {rtr : RingRtr n} {results : List Bool}
    {ans : Daemon.Answer n β} (hs : Slots log a b d) (hseq : d.aru ≤ seq)
    (h : Answers log results ans) :
    Returns (d.answerRequest rtr ans seq) (Answers log results) := by
  unfold Daemon.answerRequest
  rw [if_neg (Nat.not_lt.mpr hseq)]
  split
  · exact returns_ok.mpr { h with }
  · next info hp =>
      have hmem := hs.mem_log hp
      obtain ⟨hcount, hpacked, hsent⟩ := QueueScat.retransmit_spec h.packed info.head
        (rtr.procId.isSome || rtr.segIndex.isSome)
      dsimp only
      generalize (if (rtr.procId.isSome || rtr.segIndex.isSome) = true then _ else _) = r at *
      have hlog : ∀ p ∈ r.2.1.flatten ++ r.1.packs, p ∈ log := fun p hp ↦
        (List.mem_append.mp (hsent.mem_iff.mp hp)).elim (h.packs p) fun hp ↦
          List.mem_singleton.mp hp ▸ hmem
      obtain ⟨hout, hpacks⟩ := List.forall_mem_append.mp hlog
      refine returns_ok.mpr ⟨hpacked, ?_, hpacks, hcount.failures_le.trans h.failures⟩
      rw [List.flatten_append]
      exact List.forall_mem_append.mpr ⟨h.packets, hout⟩

/-- **`Answer_retrans`** raises no alarm if nothing is requested that is taken to be received
everywhere, and sends packets of the membership. -/
theorem answerRetrans_returns {a b : ℕ} {t : Token n} {results : List Bool} (hs : Slots log a b d)
    (hreq : ∀ rtr ∈ t.rtr, ∀ seq ∈ rtr.seqs, d.aru ≤ seq) :
    Returns (d.answerRetrans t results) fun ans ↦
      Answers log results ans ∧ ans.queue.packs = [] := by
  have hloop : Returns (t.rtr.foldlM
      (fun ans rtr ↦ rtr.seqs.foldlM (d.answerRequest rtr) ans)
      ⟨0, some d.my.id, some d.my.segIndex, .empty results, []⟩) (Answers log results) := by
    refine returns_foldlM (fun rtr hrtr ans hans ↦ ?_)
      ⟨QueueScat.Packed.empty results, by simp, by simp [QueueScat.empty], le_rfl⟩
    exact returns_foldlM (fun seq hseq ans hans ↦
      answerRequest_returns hs (hreq rtr hrtr seq hseq) hans) hans
  refine hloop.bind fun ans hans ↦ returns_pure.mpr ?_
  obtain ⟨hflat, hnil, hpacked, hcount, -⟩ := QueueScat.netFlushBcast_spec hans.packed
  refine ⟨⟨hpacked, ?_, fun p hp ↦ ?_, hcount.failures_le.trans hans.failures⟩, hnil⟩
  case refine_2 =>
      change p ∈ ans.queue.netFlushBcast.1.packs at hp
      rw [hnil] at hp
      cases hp
  change ∀ p ∈ (ans.packets ++ ans.queue.netFlushBcast.2.1).flatten, p ∈ log
  rw [List.flatten_append, hflat]
  exact List.forall_mem_append.mpr ⟨hans.packets, hans.packs⟩

/-! ## New packets -/

omit [Payload β]

/-- What a message consists of, before it is sent and after it is delivered. -/
def DownLink.content (m : DownLink β) : PacketType × List β := (m.type, m.elements)

/-- What a message consists of, before it is sent and after it is delivered. -/
def MessageLink.content (m : MessageLink n β) : PacketType × List β := (m.type, m.elements)

/-- The packets of a daemon are the pieces of the messages it was given, in order: those of
the messages that are complete, and those of the message at the head of the queue that were
sent. -/
structure Sender (log : List (Packet n β)) (submitted : List (DownLink β)) (d : Daemon n β) :
    Prop where
  up : (assemble log).up d.my.id =
    (d.downQueue.head?.map fun m ↦ m.elements.take d.curElement).getD []
  cur_lt : ∀ m, d.downQueue.head? = some m → d.curElement < m.elements.length
  cur_nil : d.downQueue = [] → d.curElement = 0
  sent : (((assemble log).messages.filter fun m ↦ m.procId = d.my.id).map MessageLink.content) ++
    d.downQueue.map DownLink.content = submitted.map DownLink.content

/-- Only the queue of a sender matters. -/
theorem Sender.congr {submitted : List (DownLink β)} {d' : Daemon n β}
    (h : Sender log submitted d) (hmy : d'.my = d.my) (hq : d'.downQueue = d.downQueue)
    (hcur : d'.curElement = d.curElement) : Sender log submitted d' :=
  ⟨by rw [hmy, hq, hcur]; exact h.up, by rw [hq, hcur]; exact h.cur_lt,
    by rw [hq, hcur]; exact h.cur_nil, by rw [hmy, hq]; exact h.sent⟩

/-- Packets of others are no concern of a sender. -/
theorem Sender.append {submitted : List (DownLink β)} (h : Sender log submitted d) :
    ∀ {created : List (Packet n β)}, (∀ p ∈ created, p.procId ≠ d.my.id) →
      Sender (log ++ created) submitted d := by
  intro created
  induction created using List.reverseRecOn with
  | nil => exact fun _ ↦ by simpa using h
  | append_singleton created p ih =>
      intro hne
      have hp : p.procId ≠ d.my.id := hne p (by simp)
      have hc := ih fun q hq ↦ hne q (List.mem_append_left _ hq)
      rw [← List.append_assoc]
      refine ⟨?_, hc.cur_lt, hc.cur_nil, ?_⟩
      · rw [assemble_concat, push_up_of_ne hp.symm]
        exact hc.up
      · rw [assemble_concat, push_messages, List.filter_append]
        have hnil : (((assemble (log ++ created)).completed p).filter
            fun m ↦ m.procId = d.my.id) = [] := by
          refine List.filter_eq_nil_iff.mpr fun m hm ↦ ?_
          simpa [(seq_of_mem_completed hm).2.1] using hp
        rw [hnil, List.append_nil]
        exact hc.sent

/-- The pieces that are left to send. -/
def Daemon.left (d : Daemon n β) : ℕ := d.pending - d.curElement

/-- When no piece is left, no message is. -/
theorem Sender.downQueue_eq_nil {submitted : List (DownLink β)} (h : Sender log submitted d)
    (hleft : d.left = 0) : d.downQueue = [] := by
  cases hq : d.downQueue with
  | nil => rfl
  | cons m rest =>
      have hcur := h.cur_lt m (by simp [hq])
      have hpending : d.pending = m.elements.length + (rest.map fun m ↦ m.elements.length).sum := by
        simp [Daemon.pending, hq]
      unfold Daemon.left at hleft
      omega

/-- The packet that is made next. -/
structure NextPacket (log : List (Packet n β)) (submitted : List (DownLink β)) (d : Daemon n β)
    (p : Packet n β) (d' : Daemon n β) : Prop where
  seq : p.seq = d.highestSeq + 1
  procId : p.procId = d.my.id
  fits : (assemble log).Fits p
  sender : Sender (log ++ [p]) submitted d'
  left : d'.left + 1 = d.left
  rest : ∃ downQueue curElement, d' = { d with
    highestSeq := d.highestSeq + 1
    highestFifoSeq := d.highestFifoSeq + 1
    downQueue
    curElement }

/-- A piece that is not the last of its message. -/
theorem Sender.piece {submitted : List (DownLink β)} {m : DownLink β} {rest : List (DownLink β)}
    {p : Packet n β} {d' : Daemon n β} (h : Sender log submitted d)
    (hq : d.downQueue = m :: rest) (hlt : d.curElement + 1 < m.elements.length)
    (hp : p.procId = d.my.id) (hbody : m.elements[d.curElement]? = some p.body)
    (hindex : p.packetIndex = (d.curElement + 1 : ℕ)) (hmy : d'.my = d.my)
    (hq' : d'.downQueue = d.downQueue) (hcur' : d'.curElement = d.curElement + 1) :
    Sender (log ++ [p]) submitted d' := by
  have hnot : ¬p.packetIndex < 0 := by omega
  have hpiece : p.isSingle = false := by
    have hne : p.packetIndex ≠ -1 := by omega
    simp [Packet.isSingle, hne]
  have hup : (assemble log).up d.my.id = m.elements.take d.curElement := by simpa [hq] using h.up
  refine ⟨?_, fun m' hm' ↦ ?_, fun hnil ↦ ?_, ?_⟩
  · rw [assemble_concat, push_up_of_not_last hpiece hnot, hp, hmy, Function.update_self, hup, hq',
      hcur', hq]
    simp [List.take_add_one, hbody]
  · obtain rfl : m = m' := by simpa [hq', hq] using hm'
    rwa [hcur']
  · rw [hq', hq] at hnil
    cases hnil
  · rw [assemble_concat, push_messages, hmy, hq']
    simpa [completed, hpiece, hnot] using h.sent

/-- The last piece of a message. -/
theorem Sender.last {submitted : List (DownLink β)} {m : DownLink β} {rest : List (DownLink β)}
    {p : Packet n β} {d' : Daemon n β} (h : Sender log submitted d)
    (hq : d.downQueue = m :: rest) (hlen : d.curElement + 1 = m.elements.length)
    (hp : p.procId = d.my.id) (htype : p.type = m.type)
    (hbody : m.elements[d.curElement]? = some p.body)
    (hindex : p.packetIndex = -(m.elements.length : ℕ)) (hmy : d'.my = d.my)
    (hq' : d'.downQueue = rest) (hcur' : d'.curElement = 0) :
    Sender (log ++ [p]) submitted d' := by
  have hlast : p.packetIndex < 0 := by omega
  have hup : (assemble log).up d.my.id = m.elements.take d.curElement := by simpa [hq] using h.up
  have helements : m.elements = (assemble log).up d.my.id ++ [p.body] := by
    rw [hup]
    calc m.elements = m.elements.take (d.curElement + 1) := by rw [hlen, List.take_length]
      _ = m.elements.take d.curElement ++ [p.body] := by
          rw [List.take_add_one, hbody, Option.toList_some]
  have hcompleted : ((assemble log).completed p).map MessageLink.content = [m.content] ∧
      ∀ m' ∈ (assemble log).completed p, m'.procId = d.my.id := by
    refine ⟨?_, fun m' hm' ↦ (seq_of_mem_completed hm').2.1.trans hp⟩
    unfold completed
    by_cases hsingle : p.isSingle
    · have hone : m.elements.length = 1 := by
        have h := packetIndex_of_single hsingle
        omega
      have hnil : (assemble log).up d.my.id = [] := by
        rw [hup, List.take_eq_nil_iff]
        exact Or.inl (by omega)
      simp [hsingle, MessageLink.content, DownLink.content, Packet.message, helements, hnil, htype]
    · simp [hsingle, hlast, MessageLink.content, DownLink.content, helements, hp, htype]
  refine ⟨?_, fun m' _ ↦ ?_, fun _ ↦ hcur', ?_⟩
  · have hnil : ((assemble log).push p).up d.my.id = [] := by
      by_cases hsingle : p.isSingle
      · have hindex' := packetIndex_of_single hsingle
        rw [push_up_of_single hsingle, hup, List.take_eq_nil_iff]
        exact Or.inl (by omega)
      · rw [push_up_of_last (by simpa using hsingle) hlast, hp, Function.update_self]
    rw [assemble_concat, hmy, hnil, hcur']
    cases d'.downQueue.head? <;> simp
  · rw [hcur']
    exact List.length_pos_iff.mpr m'.elements_ne
  · have hself : ((assemble log).completed p).filter (fun m ↦ m.procId = d.my.id) =
        (assemble log).completed p := List.filter_eq_self.mpr (by simpa using hcompleted.2)
    rw [assemble_concat, push_messages, List.filter_append, List.map_append, hmy, hq', hself,
      hcompleted.1]
    simpa [hq] using h.sent

/-- What `Send_new_packets` makes of the first message that waits. -/
theorem nextPacket_returns {submitted : List (DownLink β)} {m : DownLink β}
    {rest : List (DownLink β)} (h : Sender log submitted d) (hq : d.downQueue = m :: rest)
    (hfifo : d.highestFifoSeq ≤ d.highestSeq) (hroom : d.highestSeq + 1 < maxInt32) :
    Returns (d.nextPacket m rest) fun r ↦ NextPacket log submitted d r.1 r.2 := by
  have hcur : d.curElement < m.elements.length := h.cur_lt m (by simp [hq])
  have hup : (assemble log).up d.my.id = m.elements.take d.curElement := by simpa [hq] using h.up
  have hbody := List.getElem?_eq_getElem hcur
  have hfits : ∀ p : Packet n β, p.procId = d.my.id →
      p.packetIndex.natAbs = d.curElement + 1 → (assemble log).Fits p := by
    intro p hp hindex _
    rw [hp, hup, hindex, List.length_take]
    omega
  have hpending : d.pending = m.elements.length + (rest.map fun m ↦ m.elements.length).sum := by
    simp [Daemon.pending, hq]
  unfold Daemon.nextPacket
  dsimp only
  rw [if_neg (by omega), hbody]
  dsimp only
  by_cases hlt : d.curElement + 1 < m.elements.length
  · simp only [if_pos hlt]
    refine returns_ok.mpr ⟨rfl, rfl, hfits _ rfl (by simp; omega), ?_, ?_, _, _, rfl⟩
    · exact h.piece hq hlt rfl hbody rfl rfl rfl rfl
    · change d.pending - (d.curElement + 1) + 1 = d.pending - d.curElement
      omega
  · have hlen : d.curElement + 1 = m.elements.length := by omega
    simp only [if_neg hlt]
    refine returns_ok.mpr ⟨rfl, rfl, hfits _ rfl (by simp [hlen]), ?_, ?_, _, _, rfl⟩
    · exact h.last hq hlen rfl rfl hbody rfl rfl rfl rfl
    · change (rest.map fun m ↦ m.elements.length).sum - 0 + 1 = d.pending - d.curElement
      omega

/-! ## The packets of the membership grow -/

section

variable {a b : ℕ} {created : List (Packet n β)}

/-- A packet up to a number that was in use is not a new one. -/
theorem WellFormed.mem_of_mem_append {p : Packet n β} (hw : WellFormed (log ++ created))
    (hp : p ∈ log ++ created) (hle : p.seq ≤ log.length) : p ∈ log := by
  obtain ⟨hpos, -, hget⟩ := hw.seq_le hp
  rw [List.getElem?_append_left (by omega)] at hget
  exact List.mem_of_getElem? hget

/-- The slots do not depend on packets that follow. -/
theorem Slots.append (hs : Slots log a b d) (created : List (Packet n β)) :
    Slots (log ++ created) a b d := by
  refine { hs with stored := fun k info h ↦ ?_, highest_le := ?_ }
  · obtain ⟨hk, hlow, hle, hlog⟩ := hs.stored k info h
    exact ⟨hk, hlow, hle, List.getElem?_append_left (List.getElem?_eq_some_iff.mp hlog).1 ▸ hlog⟩
  · rw [List.length_append]
    exact Nat.le_trans hs.highest_le (Nat.le_add_right _ _)

theorem Slots.delivered_le_length (hs : Slots log a b d) : a ≤ log.length :=
  Nat.le_trans hs.delivered_le (Nat.le_trans hs.myAru_le hs.highest_le)

/-- What the sessions have been given does not depend on packets that follow. -/
theorem Handed.append (hh : Handed log a d) (hs : Slots log a b d)
    (hw : WellFormed (log ++ created)) : Handed (log ++ created) a d := by
  have hale := hs.delivered_le_length
  have htake : (log ++ created).take a = log.take a := List.take_append_of_le_length hale
  refine ⟨htake ▸ hh.up, hh.upSingle, htake ▸ hh.ordered, fun m hm ↦ ?_, hh.nodup⟩
  refine (hh.single m hm).trans (exists_congr fun q ↦ ?_)
  refine and_congr_left fun ⟨_, _, hdone⟩ ↦ ⟨List.mem_append_left _, fun hq ↦ ?_⟩
  rcases hdone with hle | ⟨info, hinfo, rfl, -⟩
  · exact hw.mem_of_mem_append hq (Nat.le_trans hle hale)
  · exact hs.mem_log hinfo

theorem SafeUpTo.append (h : SafeUpTo log a d) (hs : Slots log a b d)
    (hw : WellFormed (log ++ created)) : SafeUpTo (log ++ created) a d :=
  fun q hq hqs hle ↦
    h q (hw.mem_of_mem_append hq (Nat.le_trans hle hs.delivered_le_length)) hqs hle

/-- New packets of others do not concern a daemon that has not received them. -/
theorem Local.append (hd : Local log a b d) (hw : WellFormed (log ++ created))
    (hothers : ∀ p ∈ created, p.procId ≠ d.my.id) : Local (log ++ created) a b d := by
  have hmem : ∀ p ∈ log ++ created, p.procId = d.my.id → p ∈ log := fun p hp hmine ↦
    (List.mem_append.mp hp).resolve_right fun hnew ↦ hothers p hnew hmine
  exact ⟨hd.slots.append created, hd.handed.append hd.slots hw, hd.safe.append hd.slots hw,
    { hd.own with
      le := fun p hp hmine ↦ hd.own.le p (hmem p hp hmine) hmine
      kept := fun p hp hmine ↦ hd.own.kept p (hmem p hp hmine) hmine }⟩

/-- A daemon makes the next packet. -/
theorem Local.create (hd : Local log a b d) {p : Packet n β}
    (hw : WellFormed (log ++ [p])) (hwindow : log.length + 1 ≤ b + maxPacketsInStruct)
    (hnone : d.packets (packetEntry p.seq) = none) : Local (log ++ [p]) a b (d.insert p) := by
  have hseq : p.seq = log.length + 1 := hw.seq_eq log.length p (by simp)
  have hlow := hd.slots.discarded_le
  have hale := hd.slots.delivered_le_length
  have hmem : ∀ q ∈ log ++ [p], q ∈ log ∨ q = p := fun q hq ↦
    (List.mem_append.mp hq).imp_right List.mem_singleton.mp
  have hown := hd.own.insert p
  refine ⟨(hd.slots.append [p]).insert hw (by simp) (by omega) (by simpa using hwindow) hnone,
    (hd.handed.append hd.slots hw).insert hnone, hd.safe.append hd.slots hw,
    { hown with le := fun q hq hmine ↦ ?_, kept := fun q hq hmine hq' ↦ ?_ }⟩
  · rcases hmem q hq with hq | rfl
    · exact hown.le q hq hmine
    · exact Nat.le_max_right _ _
  · rcases hmem q hq with hq | rfl
    · exact hown.kept q hq hmine hq'
    · simp

/-- A daemon that learns of higher numbers. -/
theorem Local.grow (hd : Local log a b d) {h : ℕ} (hle : d.highestSeq ≤ h)
    (hlen : h ≤ log.length) (hwindow : h ≤ b + maxPacketsInStruct) :
    Local log a b { d with highestSeq := h } :=
  ⟨{ hd.slots with
      stored := fun k info hk ↦
        let ⟨hentry, hlow, hhigh, hlog⟩ := hd.slots.stored k info hk
        ⟨hentry, hlow, Nat.le_trans hhigh hle, hlog⟩
      window := hwindow
      highest_le := hlen
      myAru_le := Nat.le_trans hd.slots.myAru_le hle },
    { hd.handed with }, hd.safe,
    { hd.own with
      le := fun p hp hmine ↦ Nat.le_trans (hd.own.le p hp hmine) hle
      fifo_le := Nat.le_trans hd.own.fifo_le hle }⟩

/-- The slot of the next number is free as long as the window is not exhausted. -/
theorem Slots.next_free (hs : Slots log a b d)
    (hwindow : d.highestSeq + 1 ≤ b + maxPacketsInStruct) :
    d.packets (packetEntry (d.highestSeq + 1)) = none := by
  cases hp : d.packets (packetEntry (d.highestSeq + 1)) with
  | none => rfl
  | some info =>
      obtain ⟨hentry, hlow, hhigh, -⟩ := hs.stored _ _ hp
      unfold packetEntry maxPacketsInStruct at *
      omega

end

/-! ## Sending during a visit of the token -/

/-- A daemon without what sending changes. -/
def Daemon.resting (d : Daemon n β) : Daemon n β :=
  { d with
    packets := fun _ ↦ none
    downQueue := []
    curElement := 0
    highestSeq := 0
    highestFifoSeq := 0 }

/-- What sending does not change is the same. -/
theorem Daemon.eq_of_resting {α : Type*} {d d' : Daemon n β} (f : Daemon n β → α)
    (hf : ∀ d : Daemon n β, f d.resting = f d) (h : d'.resting = d.resting) : f d' = f d := by
  rw [← hf d', h, hf]

/-- What has happened when some new packets were made: the packets of the membership are
longer, the daemon has the new ones too, and those that do not wait have left. -/
structure Sends (log : List (Packet n β)) (submitted : List (DownLink β)) (d : Daemon n β)
    (queue : QueueScat n β) (s : Daemon.Sending n β) : Prop where
  resting : s.daemon.resting = d.resting
  wellFormed : WellFormed (log ++ s.created)
  consistent : Consistent (log ++ s.created) s.daemon
  highest : s.daemon.highestSeq = (log ++ s.created).length
  sender : Sender (log ++ s.created) submitted s.daemon
  mine : ∀ p ∈ s.created, p.procId = d.my.id
  packed : s.queue.Packed
  flat : s.packets.flatten ++ s.queue.packs = s.created
  counted : QueueScat.Counted queue s.packets s.numSent s.queue

variable {submitted : List (DownLink β)} {queue : QueueScat n β} {s : Daemon.Sending n β}

/-- How many packets were made, by the network packets that have left. -/
theorem Sends.length_created (h : Sends log submitted d queue s) :
    s.created.length ≤ maxPacked * (s.numSent + queue.failures + 1) := by
  have hflat := h.counted.length_flatten
  have hfew := h.packed.few
  rw [← h.flat, List.length_append, Nat.mul_succ]
  omega

variable [Payload β]

/-- One round of the loop of `Send_new_packets`. -/
theorem sendNewPacket_returns {m : DownLink β} {rest : List (DownLink β)}
    (h : Sends log submitted d queue s) (hq : s.daemon.downQueue = m :: rest)
    (hwindow : (log ++ s.created).length + 1 ≤ d.lastDiscarded + maxPacketsInStruct)
    (hroom : (log ++ s.created).length + 1 < maxInt32) :
    Returns (Daemon.sendNewPacket s m rest) fun s' ↦ Sends log submitted d queue s' ∧
      s'.numSent ≤ s.numSent + 1 ∧ s'.daemon.left + 1 = s.daemon.left := by
  have hdisc : s.daemon.lastDiscarded = d.lastDiscarded :=
    Daemon.eq_of_resting Daemon.lastDiscarded (fun _ ↦ rfl) h.resting
  have hmy : s.daemon.my = d.my := Daemon.eq_of_resting Daemon.my (fun _ ↦ rfl) h.resting
  refine (nextPacket_returns h.sender hq h.consistent.own.fifo_le (h.highest ▸ hroom)).bind ?_
  rintro ⟨p, d₁⟩ hnext
  obtain ⟨hpseq, hproc, hfits, hsender, hleft, downQueue, curElement, hd₁⟩ := hnext
  dsimp only at hpseq hproc hfits hsender hleft hd₁ ⊢
  have hseq : p.seq = (log ++ s.created).length + 1 := by rw [hpseq, h.highest]
  have hw : WellFormed (log ++ s.created ++ [p]) := h.wellFormed.concat hseq hfits
  have hlen : (log ++ s.created ++ [p]).length = p.seq := by
    rw [hseq, List.length_append, List.length_singleton]
  have hfree : s.daemon.packets (packetEntry p.seq) = none := by
    rw [hpseq]
    exact h.consistent.slots.next_free (by rw [h.highest, hdisc]; exact hwindow)
  have hlow : s.daemon.lastDiscarded < p.seq := by
    have hlow := h.consistent.slots.discarded_le
    have hale := h.consistent.slots.delivered_le
    have hmyle := h.consistent.slots.myAru_le
    omega
  have hcreate := h.consistent.create hw (by omega) hfree
  obtain ⟨hflat, hpacked, hcount, hle⟩ := QueueScat.netQueueBcast_spec h.packed p
  subst hd₁
  dsimp only at hsender hleft ⊢
  rw [hfree]
  simp only [Option.isSome_none, Bool.false_eq_true, if_false]
  refine returns_pure.mpr ⟨?_, Nat.add_le_add_left hle _, hleft⟩
  constructor
  case resting => exact h.resting
  case wellFormed => rwa [List.append_assoc] at hw
  case consistent =>
      have hmax : max s.daemon.highestSeq p.seq = p.seq := by omega
      rw [Daemon.insert, hmax] at hcreate
      rw [← hpseq, ← List.append_assoc]
      exact ⟨{ hcreate.slots with }, { hcreate.handed with }, hcreate.safe,
        { hcreate.own with
          fifo_le := (Nat.succ_le_succ h.consistent.own.fifo_le).trans hpseq.ge }⟩
  case highest =>
      rw [← List.append_assoc, hlen]
      exact hpseq.symm
  case sender =>
      rw [← List.append_assoc]
      exact { hsender with }
  case mine =>
      intro q hq
      rcases List.mem_append.mp hq with hq | hq
      · exact h.mine q hq
      · rw [List.mem_singleton.mp hq, hproc, hmy]
  case packed => exact hpacked
  case flat => rw [List.flatten_append, List.append_assoc, hflat, ← List.append_assoc, h.flat]
  case counted => exact h.counted.append hcount

/-- The loop of `Send_new_packets`: it ends when the window or the queue is exhausted. -/
theorem sendLoop_returns {numAllowed : ℕ}
    (hwindow : log.length + maxPacked * (numAllowed + queue.failures + 1) ≤
      d.lastDiscarded + maxPacketsInStruct)
    (hroom : log.length + maxPacked * (numAllowed + queue.failures + 1) < maxInt32) :
    ∀ (k : ℕ) (s : Daemon.Sending n β), Sends log submitted d queue s → s.numSent ≤ numAllowed →
      s.daemon.left ≤ k → Returns (Daemon.sendLoop numAllowed k s) fun s' ↦
        Sends log submitted d queue s' ∧ s'.numSent ≤ numAllowed ∧
          (numAllowed ≤ s'.numSent ∨ s'.daemon.downQueue = []) := by
  intro k
  induction k with
  | zero =>
      exact fun s h hle hk ↦ returns_ok.mpr
        ⟨h, hle, Or.inr (h.sender.downQueue_eq_nil (Nat.le_zero.mp hk))⟩
  | succ k ih =>
      intro s h hle hk
      rw [Daemon.sendLoop]
      split
      · next hlt =>
          split
          · next hq => exact returns_ok.mpr ⟨h, hle, Or.inr hq⟩
          · next m rest hq =>
              have hlen := h.length_created
              have hmul : maxPacked * (s.numSent + queue.failures + 1) + maxPacked ≤
                  maxPacked * (numAllowed + queue.failures + 1) := by
                rw [← Nat.mul_succ]
                exact Nat.mul_le_mul_left _ (by omega)
              have hpos : 0 < maxPacked := by decide
              refine (sendNewPacket_returns h hq ?_ ?_).bind fun s' ⟨h', hle', hleft⟩ ↦ ?_
              · rw [List.length_append]
                omega
              · rw [List.length_append]
                omega
              · exact ih s' h' (by omega) (by omega)
      · next hge => exact returns_ok.mpr ⟨h, hle, Or.inl (Nat.le_of_not_lt hge)⟩

theorem sendLoop_zero (k : ℕ) (s : Daemon.Sending n β) : Daemon.sendLoop 0 k s = .ok s := by
  cases k <;> rfl

/-- **`Send_new_packets`** raises no alarm while the window is not exhausted.  All new packets
leave. -/
theorem sendNewPackets_returns {numAllowed : ℕ} (hw : WellFormed log) (hd : Consistent log d)
    (hhigh : d.highestSeq = log.length) (hsender : Sender log submitted d) (hq : queue.Packed)
    (hnil : queue.packs = [])
    (hwindow : numAllowed = 0 ∨ log.length + maxPacked * (numAllowed + queue.failures + 1) ≤
      d.lastDiscarded + maxPacketsInStruct)
    (hroom : numAllowed = 0 ∨
      log.length + maxPacked * (numAllowed + queue.failures + 1) < maxInt32) :
    Returns (d.sendNewPackets queue numAllowed) fun s ↦ Sends log submitted d queue s ∧
      s.packets.flatten = s.created ∧
      s.created.length ≤ maxPacked * (numAllowed + queue.failures + 1) ∧
      (numAllowed = 0 → s.created = []) ∧
      (numAllowed ≤ s.numSent ∨ s.daemon.downQueue = []) := by
  have hstart : Sends log submitted d queue ⟨d, queue, [], 0, []⟩ :=
    ⟨rfl, by simpa using hw, by simpa using hd, by simpa using hhigh, by simpa using hsender,
      by simp, hq, hnil, ⟨rfl, le_rfl, by simp⟩⟩
  have hloop : Returns (Daemon.sendLoop numAllowed d.pending ⟨d, queue, [], 0, []⟩) fun s ↦
      (Sends log submitted d queue s ∧ s.numSent ≤ numAllowed ∧
        (numAllowed ≤ s.numSent ∨ s.daemon.downQueue = [])) ∧
        (numAllowed = 0 → s.created = []) := by
    rcases Nat.eq_zero_or_pos numAllowed with rfl | hpos
    · rw [sendLoop_zero]
      exact returns_ok.mpr ⟨⟨hstart, le_rfl, Or.inl le_rfl⟩, fun _ ↦ rfl⟩
    · have hne : numAllowed ≠ 0 := Nat.ne_of_gt hpos
      exact (sendLoop_returns (hwindow.resolve_left hne) (hroom.resolve_left hne) d.pending _ hstart
        (Nat.zero_le _) (Nat.sub_le _ _)).mono fun s h ↦ ⟨h, fun hzero ↦ absurd hzero hne⟩
  refine hloop.bind fun s ⟨⟨h, hle, hend⟩, hcreated⟩ ↦ returns_pure.mpr ?_
  obtain ⟨hflat, hnil', hpacked, hcount, -⟩ := QueueScat.netFlushBcast_spec h.packed
  have hall : (s.packets ++ s.queue.netFlushBcast.2.1).flatten = s.created := by
    rw [List.flatten_append, hflat, h.flat]
  refine ⟨?_, hall, ?_, hcreated, hend.imp_left (Nat.le_add_right_of_le ·)⟩
  · exact { h with
      packed := hpacked
      flat := (congrArg₂ (· ++ ·) hall hnil').trans (List.append_nil _)
      counted := h.counted.append hcount }
  · exact Nat.le_trans h.length_created (Nat.mul_le_mul_left _ (by omega))

end Spread
