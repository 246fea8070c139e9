import ReplicatedBank.Program.Returns
import ReplicatedBank.Spread.Assembly
import ReplicatedBank.Spread.Daemon

/-!
# What a daemon has and has delivered

The invariant of a single daemon, relative to the packets of the membership in the order of
their numbers (`log`): what is in the slots, and what the sessions have been given.  It has
two parameters that are the variables `Last_delivered` and `Last_discarded` of the daemon
except inside the loop of `Discard_packets`: up to `a` all packets are delivered, and up to
`b` they are given up.

Every function that delivers is shown to raise no alarm in such a state and to lead to such
a state again.
-/

namespace Spread

open Program

variable {n : ℕ} {β : Type*}

/-- A daemon without what delivery changes. -/
def Daemon.control (d : Daemon n β) : Daemon n β :=
  { d with
    packets := fun _ ↦ none
    upQueue := fun _ ↦ none
    lastDiscarded := 0
    lastDelivered := 0
    messages := [] }

/-- What delivery does not change is the same. -/
theorem Daemon.eq_of_control {α : Type*} {d d' : Daemon n β} (f : Daemon n β → α)
    (hf : ∀ d : Daemon n β, f d.control = f d) (h : d'.control = d.control) : f d' = f d := by
  rw [← hf d', h, hf]

/-- The slots hold packets of the membership, not yet given up, each in its place; up to
`My_aru` there are no gaps; and what is delivered out of order may be. -/
structure Slots (log : List (Packet n β)) (a b : ℕ) (d : Daemon n β) : Prop where
  stored : ∀ k info, d.packets k = some info → k = packetEntry info.head.seq ∧
    b < info.head.seq ∧ info.head.seq ≤ d.highestSeq ∧ log[info.head.seq - 1]? = some info.head
  window : d.highestSeq ≤ b + maxPacketsInStruct
  highest_le : d.highestSeq ≤ log.length
  received : ∀ s, b < s → s ≤ d.myAru → (d.packets (packetEntry s)).isSome
  discarded_le : b ≤ a
  delivered_le : a ≤ d.myAru
  myAru_le : d.myAru ≤ d.highestSeq
  delivered : ∀ k info, d.packets k = some info → info.head.seq ≤ a → info.delivered
  early : ∀ k info, d.packets k = some info → a < info.head.seq → info.delivered →
    info.head.isSingle

/-- Whether a packet is delivered. -/
def Done (a : ℕ) (d : Daemon n β) (p : Packet n β) : Prop :=
  p.seq ≤ a ∨ ∃ info, d.packets (packetEntry p.seq) = some info ∧ info.head = p ∧ info.delivered

/-- The sessions have been given what the packets up to `a` amount to, in this order, and
besides, once each, the single packets that were delivered. -/
structure Handed (log : List (Packet n β)) (a : ℕ) (d : Daemon n β) : Prop where
  up : ∀ i, (d.upQueue (some i)).getD [] = (assemble (log.take a)).up i
  upSingle : d.upQueue none = none
  ordered : d.messages.filter (fun m ↦ !m.isSingle) =
    (assemble (log.take a)).messages.filter fun m ↦ !m.isSingle
  single : ∀ m, m.isSingle →
    (m ∈ d.messages ↔ ∃ p ∈ log, p.isSingle ∧ m = p.message ∧ Done a d p)
  nodup : ((d.messages.filter MessageLink.isSingle).map MessageLink.seq).Nodup

/-- Safe packets are delivered only if they are received everywhere. -/
def SafeUpTo (log : List (Packet n β)) (a : ℕ) (d : Daemon n β) : Prop :=
  ∀ p ∈ log, p.type.isSafe → p.seq ≤ a → p.seq ≤ d.aru

/-- The packets that a daemon has made are in its slots until they are given up. -/
structure Own (log : List (Packet n β)) (b : ℕ) (d : Daemon n β) : Prop where
  le : ∀ p ∈ log, p.procId = d.my.id → p.seq ≤ d.highestSeq
  kept : ∀ p ∈ log, p.procId = d.my.id → b < p.seq → (d.packets (packetEntry p.seq)).isSome
  fifo_le : d.highestFifoSeq ≤ d.highestSeq

/-- The invariant of a daemon. -/
structure Local (log : List (Packet n β)) (a b : ℕ) (d : Daemon n β) : Prop where
  slots : Slots log a b d
  handed : Handed log a d
  safe : SafeUpTo log a d
  own : Own log b d

/-- The invariant of a daemon between two functions. -/
abbrev Consistent (log : List (Packet n β)) (d : Daemon n β) : Prop :=
  Local log d.lastDelivered d.lastDiscarded d

variable {log : List (Packet n β)} {a b k s : ℕ} {d d' : Daemon n β} {info : PacketInfo n β}
variable {p q : Packet n β}

/-! ## Slots -/

/-- Within the window a slot determines the number of its packet. -/
theorem Slots.seq_eq (hs : Slots log a b d) (hb : b < s) (hle : s ≤ d.highestSeq)
    (hp : d.packets (packetEntry s) = some info) : info.head.seq = s := by
  obtain ⟨hentry, hlow, hhigh, -⟩ := hs.stored _ _ hp
  have hwindow := hs.window
  unfold packetEntry maxPacketsInStruct at *
  omega

/-- Two packets in one slot are the same. -/
theorem Slots.head_eq (hs : Slots log a b d) (hp : d.packets k = some info)
    (hq : log[q.seq - 1]? = some q) (hseq : info.head.seq = q.seq) : info.head = q := by
  obtain ⟨-, -, -, hlog⟩ := hs.stored _ _ hp
  rw [hseq, hq] at hlog
  exact (Option.some.inj hlog).symm

/-- A packet in a slot is one of the membership. -/
theorem Slots.mem_log (hs : Slots log a b d) (hp : d.packets k = some info) : info.head ∈ log :=
  List.mem_of_getElem? (hs.stored k info hp).2.2.2

/-! ## Delivering one packet -/

/-- The packets that may be delivered: the next one, and single ones at any time. -/
def Due (a a' : ℕ) (p : Packet n β) : Prop :=
  (a' = a ∧ p.isSingle = true) ∨ (a' = a + 1 ∧ p.seq = a + 1)

theorem Due.le {a' : ℕ} (h : Due a a' p) : a ≤ a' := by
  rcases h with ⟨rfl, -⟩ | ⟨rfl, -⟩ <;> omega

/-- The slot of a packet that is delivered. -/
theorem Slots.deliver {a' : ℕ} (hs : Slots log a b d) (hp : d.packets k = some info)
    (hdue : Due a a' info.head) (ha : a' ≤ d.myAru) (hc : d'.control = d.control)
    (hpk : d'.packets = Function.update d.packets k (some { info with delivered := true })) :
    Slots log a' b d' := by
  have hhigh : d'.highestSeq = d.highestSeq :=
    Daemon.eq_of_control Daemon.highestSeq (fun _ ↦ rfl) hc
  have hmy : d'.myAru = d.myAru := Daemon.eq_of_control Daemon.myAru (fun _ ↦ rfl) hc
  have hother : ∀ k' info', k' ≠ k → d'.packets k' = some info' → d.packets k' = some info' :=
    fun k' info' hk h ↦ by rwa [hpk, Function.update_of_ne hk] at h
  have hsame : ∀ info', d'.packets k = some info' → info' = { info with delivered := true } :=
    fun info' h ↦ by simpa [hpk, eq_comm] using h
  constructor
  case stored =>
      intro k' info' h
      rw [hhigh]
      by_cases hk : k' = k
      · subst hk
        rw [hsame info' h]
        exact hs.stored k' info hp
      · exact hs.stored k' info' (hother k' info' hk h)
  case window => exact hhigh ▸ hs.window
  case highest_le => exact hhigh ▸ hs.highest_le
  case received =>
      intro s hlow hle
      have hsome := hs.received s hlow (hmy ▸ hle)
      by_cases hk : packetEntry s = k
      · simp [hpk, hk]
      · rwa [hpk, Function.update_of_ne hk]
  case discarded_le => exact Nat.le_trans hs.discarded_le hdue.le
  case delivered_le => exact hmy ▸ ha
  case myAru_le => exact hmy ▸ hhigh ▸ hs.myAru_le
  case delivered =>
      intro k' info' h hle
      by_cases hk : k' = k
      · subst hk
        rw [hsame info' h]
      · have hold := hother k' info' hk h
        refine hs.delivered k' info' hold ?_
        rcases hdue with ⟨rfl, -⟩ | ⟨rfl, hseq⟩
        · exact hle
        · by_contra hgt
          have heq : info'.head.seq = info.head.seq := by omega
          exact hk ((hs.stored k' info' hold).1.trans
            ((congrArg packetEntry heq).trans (hs.stored k info hp).1.symm))
  case early =>
      intro k' info' h hlt hdel
      by_cases hk : k' = k
      · subst hk
        rw [hsame info' h] at hlt ⊢
        rcases hdue with ⟨-, hsingle⟩ | ⟨rfl, hseq⟩
        · exact hsingle
        · exact absurd hseq (Nat.ne_of_gt hlt)
      · exact hs.early k' info' (hother k' info' hk h) (Nat.lt_of_le_of_lt hdue.le hlt) hdel

/-- What is delivered after a packet: what was, and the packet. -/
theorem Slots.done_iff {a' : ℕ} (hs : Slots log a b d) (hw : WellFormed log)
    (hp : d.packets k = some info) (hdue : Due a a' info.head)
    (hpk : d'.packets = Function.update d.packets k (some { info with delivered := true }))
    (hq : q ∈ log) : Done a' d' q ↔ Done a d q ∨ q = info.head := by
  obtain ⟨hk, hlow, -, -⟩ := hs.stored k info hp
  have hlog := (hw.seq_le hq).2.2
  constructor
  · rintro (hle | ⟨info', h, rfl, hdel⟩)
    · rcases hdue with ⟨rfl, -⟩ | ⟨rfl, hseq⟩
      · exact Or.inl (Or.inl hle)
      · rcases Nat.lt_or_eq_of_le hle with hlt | heq
        · exact Or.inl (Or.inl (Nat.le_of_lt_succ hlt))
        · exact Or.inr (hs.head_eq hp hlog (hseq.trans heq.symm)).symm
    · by_cases hentry : packetEntry info'.head.seq = k
      · rw [hpk, hentry, Function.update_self, Option.some.injEq] at h
        exact Or.inr (by rw [← h])
      · rw [hpk, Function.update_of_ne hentry] at h
        exact Or.inl (Or.inr ⟨info', h, rfl, hdel⟩)
  · rintro ((hle | ⟨info', h, rfl, hdel⟩) | rfl)
    · exact Or.inl (Nat.le_trans hle hdue.le)
    · by_cases hentry : packetEntry info'.head.seq = k
      · obtain rfl : info = info' := by
          rw [hentry, hp] at h
          exact Option.some.inj h
        exact Or.inr ⟨{ info with delivered := true },
          by rw [hpk, hentry, Function.update_self], rfl, rfl⟩
      · exact Or.inr ⟨info', by rwa [hpk, Function.update_of_ne hentry], rfl, hdel⟩
    · exact Or.inr ⟨{ info with delivered := true },
        by rw [hpk, ← hk, Function.update_self], rfl, rfl⟩

/-- A packet that waits in its slot is not delivered. -/
theorem Slots.not_done (hs : Slots log a b d) (hp : d.packets k = some info)
    (hd : info.delivered = false) : ¬Done a d info.head := by
  rintro (hle | ⟨info', h, -, hdel⟩)
  · rw [hs.delivered k info hp hle] at hd
    cases hd
  · rw [← (hs.stored k info hp).1, hp] at h
    rw [← Option.some.inj h, hd] at hdel
    cases hdel

/-- The sessions after a packet has been delivered. -/
theorem Handed.deliver {a' : ℕ} (hh : Handed log a d) (hs : Slots log a b d)
    (hw : WellFormed log) (hp : d.packets k = some info) (hd : info.delivered = false)
    (hdue : Due a a' info.head) (hfits : (assemble (log.take a)).Fits info.head)
    (hpk : d'.packets = Function.update d.packets k (some { info with delivered := true }))
    (hup : ∀ i, (d'.upQueue (some i)).getD [] = ((assemble (log.take a)).push info.head).up i)
    (hup' : d'.upQueue none = none)
    (hm : d'.messages = d.messages ++ (assemble (log.take a)).completed info.head) :
    Handed log a' d' := by
  have hmem := hs.mem_log hp
  have hlog := (hs.stored k info hp).2.2.2
  have hdone : ∀ q ∈ log, Done a' d' q ↔ Done a d q ∨ q = info.head := fun q hq ↦
    hs.done_iff hw hp hdue hpk hq
  have hcompleted : ∀ m ∈ (assemble (log.take a)).completed info.head, m.isSingle →
      info.head.isSingle ∧ m = info.head.message := fun m hm hsingle ↦ by
    have hp := (isSingle_of_mem_completed hfits hm).symm.trans hsingle
    rw [completed_of_single hp] at hm
    exact ⟨hp, List.mem_singleton.mp hm⟩
  constructor
  case up =>
      intro i
      rw [hup]
      rcases hdue with ⟨rfl, hsingle⟩ | ⟨rfl, hseq⟩
      · rw [push_up_of_single hsingle]
      · rw [assemble_take_succ (k := a) (p := info.head) (by rwa [hseq] at hlog)]
  case upSingle => exact hup'
  case ordered =>
      rw [hm, List.filter_append, hh.ordered]
      rcases hdue with ⟨rfl, hsingle⟩ | ⟨rfl, hseq⟩
      · have hmessage : info.head.message.isSingle = true := by
          have h := isSingle_of_mem_completed hfits
            (completed_of_single hsingle ▸ List.mem_singleton_self _)
          rw [h, hsingle]
        rw [completed_of_single hsingle]
        simp [hmessage]
      · rw [assemble_take_succ (k := a) (p := info.head) (by rwa [hseq] at hlog), push_messages,
          List.filter_append]
  case single =>
      intro m hsingle
      rw [hm, List.mem_append, hh.single m hsingle]
      constructor
      · rintro (⟨q, hq, hqs, rfl, hqd⟩ | hm)
        · exact ⟨q, hq, hqs, rfl, (hdone q hq).mpr (Or.inl hqd)⟩
        · obtain ⟨hps, rfl⟩ := hcompleted m hm hsingle
          exact ⟨info.head, hmem, hps, rfl, (hdone _ hmem).mpr (Or.inr rfl)⟩
      · rintro ⟨q, hq, hqs, rfl, hqd⟩
        rcases (hdone q hq).mp hqd with hqd | rfl
        · exact Or.inl ⟨q, hq, hqs, rfl, hqd⟩
        · exact Or.inr (by rw [completed_of_single hqs]; exact List.mem_singleton_self _)
  case nodup =>
      rw [hm, List.filter_append, List.map_append]
      refine List.Nodup.append hh.nodup ?_ ?_
      · unfold Assembly.completed
        split
        · exact (List.nodup_singleton _).sublist (List.filter_sublist.map _)
        · split
          · exact (List.nodup_singleton _).sublist (List.filter_sublist.map _)
          · simp
      · intro s hold hnew
        obtain ⟨m, hm, rfl⟩ := List.mem_map.mp hold
        obtain ⟨m', hm', hseq⟩ := List.mem_map.mp hnew
        obtain ⟨hm, hsingle⟩ := List.mem_filter.mp hm
        obtain ⟨hm', hsingle'⟩ := List.mem_filter.mp hm'
        obtain ⟨-, rfl⟩ := hcompleted m' hm' hsingle'
        obtain ⟨q, hq, -, rfl, hqd⟩ := (hh.single m hsingle).mp hm
        refine hs.not_done hp hd ?_
        rwa [hs.head_eq hp (hw.seq_le hq).2.2 hseq]

/-- A single packet that has been delivered early is only counted when its turn comes. -/
theorem Handed.skip (hh : Handed log a d) (hs : Slots log a b d) (hw : WellFormed log)
    (hp : d.packets (packetEntry (a + 1)) = some info) (hseq : info.head.seq = a + 1)
    (hdel : info.delivered) : Handed log (a + 1) d := by
  have hsingle := hs.early _ info hp (by omega) hdel
  have hlog : log[a]? = some info.head := by
    have h := (hs.stored _ info hp).2.2.2
    rwa [hseq] at h
  have hdone : ∀ q ∈ log, Done (a + 1) d q ↔ Done a d q := by
    refine fun q hq ↦ ⟨?_, Or.imp_left Nat.le_succ_of_le⟩
    rintro (hle | h)
    · rcases Nat.lt_or_eq_of_le hle with hlt | heq
      · exact Or.inl (Nat.le_of_lt_succ hlt)
      · have hq := hs.head_eq hp (hw.seq_le hq).2.2 (hseq.trans heq.symm)
        exact Or.inr ⟨info, by rwa [heq], hq, hdel⟩
    · exact Or.inr h
  constructor
  case up =>
      intro i
      rw [hh.up, assemble_take_succ hlog, push_up_of_single hsingle]
  case upSingle => exact hh.upSingle
  case ordered =>
      have hmessage : info.head.message.isSingle = true := by
        have h := isSingle_of_mem_completed (a := assemble (log.take a))
          (fun hp ↦ absurd hsingle (by simp [hp]))
          (completed_of_single hsingle ▸ List.mem_singleton_self _)
        rw [h, hsingle]
      rw [hh.ordered, assemble_take_succ hlog, push_messages, completed_of_single hsingle]
      simp [hmessage]
  case single =>
      intro m hm
      rw [hh.single m hm]
      refine exists_congr fun q ↦ and_congr_right fun hq ↦ ?_
      rw [hdone q hq]
  case nodup => exact hh.nodup

theorem Slots.skip (hs : Slots log a b d) (hp : d.packets (packetEntry (a + 1)) = some info)
    (hlt : a < d.myAru) (hdel : info.delivered) : Slots log (a + 1) b d := by
  refine { hs with discarded_le := ?_, delivered_le := hlt, delivered := ?_, early := ?_ }
  · exact Nat.le_succ_of_le hs.discarded_le
  · intro k' info' h hle
    rcases Nat.lt_or_eq_of_le hle with hlt | heq
    · exact hs.delivered k' info' h (Nat.le_of_lt_succ hlt)
    · obtain rfl : info = info' := by
        rw [(hs.stored k' info' h).1, heq, hp] at h
        exact Option.some.inj h
      exact hdel
  · exact fun k' info' h hgt ↦ hs.early k' info' h (Nat.lt_of_succ_lt hgt)

/-- `Deliver_packet` of a single packet. -/
theorem deliverPacket_single (hup : d.upQueue none = none) (hp : info.head.isSingle) :
    d.deliverPacket k info = .ok { d with
      packets := Function.update d.packets k (some { info with delivered := true })
      upQueue := Function.update d.upQueue none none
      messages := d.messages ++ [info.head.message] } := by
  simp [Daemon.deliverPacket, hp, hup, packetIndex_of_single hp, Packet.message]

/-- `Deliver_packet` of the next piece of a message. -/
theorem deliverPacket_piece {mess : List β} (hp : info.head.isSingle = false)
    (hup : (d.upQueue (some info.head.procId)).getD [] = mess)
    (hlen : mess.length + 1 = info.head.packetIndex.natAbs) :
    d.deliverPacket k info = .ok { d with
      packets := Function.update d.packets k (some { info with delivered := true })
      upQueue := Function.update d.upQueue (some info.head.procId)
        (if info.head.packetIndex < 0 then none else some (mess ++ [info.head.body]))
      messages := d.messages ++ if info.head.packetIndex < 0 then
        [⟨info.head.type, info.head.procId, info.head.seq, mess ++ [info.head.body]⟩]
      else [] } := by
  by_cases hlast : info.head.packetIndex < 0
  · simp [Daemon.deliverPacket, hp, hup, hlen, hlast]
  · simp [Daemon.deliverPacket, hp, hup, hlen, hlast]

/-- No slot is emptied when a packet is delivered. -/
theorem Own.deliver (ho : Own log b d) (hc : d'.control = d.control) {info' : PacketInfo n β}
    (hpk : d'.packets = Function.update d.packets k (some info')) : Own log b d' := by
  have hmy : d'.my = d.my := Daemon.eq_of_control Daemon.my (fun _ ↦ rfl) hc
  have hhigh : d'.highestSeq = d.highestSeq :=
    Daemon.eq_of_control Daemon.highestSeq (fun _ ↦ rfl) hc
  have hfifo : d'.highestFifoSeq = d.highestFifoSeq :=
    Daemon.eq_of_control Daemon.highestFifoSeq (fun _ ↦ rfl) hc
  refine ⟨hmy ▸ hhigh ▸ ho.le, fun q hq hmine hlow ↦ ?_, hfifo ▸ hhigh ▸ ho.fifo_le⟩
  have hsome := ho.kept q hq (hmy ▸ hmine) hlow
  by_cases hk : packetEntry q.seq = k
  · simp [hpk, hk]
  · rwa [hpk, Function.update_of_ne hk]

/-- What `Deliver_packet` does with a packet that is due. -/
theorem deliverPacket_returns {a' : ℕ} (hs : Slots log a b d) (hh : Handed log a d)
    (ho : Own log b d) (hw : WellFormed log) (hp : d.packets k = some info)
    (hd : info.delivered = false) (hdue : Due a a' info.head) (ha : a' ≤ d.myAru) :
    Returns (d.deliverPacket k info) fun d' ↦ d'.control = d.control ∧
      d'.lastDelivered = d.lastDelivered ∧ d'.lastDiscarded = d.lastDiscarded ∧
      d.messages <+: d'.messages ∧ Slots log a' b d' ∧ Handed log a' d' ∧ Own log b d' := by
  have hfits : (assemble (log.take a)).Fits info.head := by
    rcases hdue with ⟨-, hsingle⟩ | ⟨-, hseq⟩
    · exact fun h ↦ absurd hsingle (by simp [h])
    · have hlog := (hs.stored k info hp).2.2.2
      rw [hseq, Nat.add_sub_cancel] at hlog
      exact hw.fits a _ hlog
  by_cases hsingle : info.head.isSingle
  · rw [deliverPacket_single hh.upSingle hsingle]
    refine returns_ok.mpr ⟨rfl, rfl, rfl, List.prefix_append _ _, hs.deliver hp hdue ha rfl rfl,
      hh.deliver hs hw hp hd hdue hfits rfl ?_ ?_ ?_, ho.deliver rfl rfl⟩
    · intro i
      rw [push_up_of_single hsingle]
      exact hh.up i
    · simp
    · rw [completed_of_single hsingle]
  · have hpiece : info.head.isSingle = false := by simpa using hsingle
    have hup := hh.up info.head.procId
    rw [deliverPacket_piece hpiece hup (hfits hpiece)]
    refine returns_ok.mpr ⟨rfl, rfl, rfl, List.prefix_append _ _, hs.deliver hp hdue ha rfl rfl,
      hh.deliver hs hw hp hd hdue hfits rfl ?_ ?_ ?_, ho.deliver rfl rfl⟩
    · intro i
      by_cases hi : i = info.head.procId
      · subst hi
        by_cases hlast : info.head.packetIndex < 0
        · simp [push_up_of_last hpiece hlast, hlast]
        · simp [push_up_of_not_last hpiece hlast, hlast]
      · rw [push_up_of_ne hi]
        simpa [hi] using hh.up i
    · simpa using hh.upSingle
    · simp [Assembly.completed, hpiece]

/-! ## Delivering in order and out of order -/

/-- In order up to the first safe packet. -/
theorem deliverAgreedLoop_returns (hw : WellFormed log) :
    ∀ (k : ℕ) (d : Daemon n β), Local log d.lastDelivered b d → d.lastDelivered + k ≤ d.myAru →
      Returns (d.deliverAgreedLoop k) fun d' ↦ d'.control = d.control ∧
        d'.lastDiscarded = d.lastDiscarded ∧ d.messages <+: d'.messages ∧
        Local log d'.lastDelivered b d' := by
  intro k
  induction k with
  | zero => exact fun d hd _ ↦ returns_ok.mpr ⟨rfl, rfl, List.prefix_rfl, hd⟩
  | succ k ih =>
      intro d hd hle
      have hlow : b < d.lastDelivered + 1 := Nat.lt_succ_of_le hd.slots.discarded_le
      have hmy := hd.slots.myAru_le
      obtain ⟨info, hp⟩ := Option.isSome_iff_exists.mp
        (hd.slots.received (d.lastDelivered + 1) hlow (by omega))
      have hseq : info.head.seq = d.lastDelivered + 1 := hd.slots.seq_eq hlow (by omega) hp
      have hlog := hd.slots.mem_log hp
      have hsafe : ∀ d' : Daemon n β, d'.control = d.control → info.head.type.isSafe = false →
          SafeUpTo log (d.lastDelivered + 1) d' := by
        intro d' hc hnot q hq hqs hqle
        rw [Daemon.eq_of_control Daemon.aru (fun _ ↦ rfl) hc]
        rcases Nat.lt_or_eq_of_le hqle with hlt | heq
        · exact hd.safe q hq hqs (Nat.le_of_lt_succ hlt)
        · have hhead := hd.slots.head_eq hp (hw.seq_le hq).2.2 (hseq.trans heq.symm)
          rw [hhead, hqs] at hnot
          cases hnot
      simp only [Daemon.deliverAgreedLoop, hp]
      by_cases hdel : info.delivered
      · have hsingle := hd.slots.early _ info hp (by omega) hdel
        have hnot : info.head.type.isSafe = false := by
          simp only [Packet.isSingle, Bool.and_eq_true] at hsingle
          cases htype : info.head.type <;> simp_all [PacketType.isReliable, PacketType.isSafe]
        rw [if_pos hdel]
        refine ih { d with lastDelivered := d.lastDelivered + 1 } ⟨?_, ?_, ?_, ?_⟩ ?_
        · have h := hd.slots.skip hp (by omega) hdel
          exact { h with }
        · have h := hd.handed.skip hd.slots hw hp hseq hdel
          exact { h with }
        · exact hsafe _ rfl hnot
        · exact { hd.own with }
        · change d.lastDelivered + 1 + k ≤ d.myAru
          omega
      · rw [if_neg hdel]
        by_cases htype : info.head.type.isSafe
        · rw [if_pos htype]
          exact returns_ok.mpr ⟨rfl, rfl, List.prefix_rfl, hd⟩
        · rw [if_neg htype]
          have hdue : Due d.lastDelivered (d.lastDelivered + 1) info.head := Or.inr ⟨rfl, hseq⟩
          refine (deliverPacket_returns hd.slots hd.handed hd.own hw hp (by simpa using hdel) hdue
            (by omega)).bind fun d₁ h₁ ↦ ?_
          obtain ⟨hc, hld, hdisc, hmore, hs, hh, ho⟩ := h₁
          have hmy₁ : d₁.myAru = d.myAru := Daemon.eq_of_control Daemon.myAru (fun _ ↦ rfl) hc
          refine (ih { d₁ with lastDelivered := d₁.lastDelivered + 1 } ⟨?_, ?_, ?_, ?_⟩ ?_).mono ?_
          · rw [hld]
            exact { hs with }
          · rw [hld]
            exact { hh with }
          · rw [hld]
            exact hsafe _ hc (by simpa using htype)
          · exact { ho with }
          · change d₁.lastDelivered + 1 + k ≤ d₁.myAru
            omega
          · rintro d₂ ⟨hc₂, hdisc₂, hmore₂, h₂⟩
            exact ⟨hc₂.trans hc, hdisc₂.trans hdisc, hmore.trans hmore₂, h₂⟩

/-- What delivery leads to: the same but for what it may change, and the invariant again. -/
structure Delivers (log : List (Packet n β)) (d d' : Daemon n β) : Prop where
  control : d'.control = d.control
  lastDiscarded : d'.lastDiscarded = d.lastDiscarded
  messages : d.messages <+: d'.messages
  consistent : Consistent log d'

/-- `Deliver_agreed_packets` raises no alarm. -/
theorem deliverAgreedPackets_returns (hw : WellFormed log) (hd : Consistent log d) :
    Returns d.deliverAgreedPackets (Delivers log d) := by
  have hle := hd.slots.delivered_le
  refine (deliverAgreedLoop_returns hw _ d hd (by omega)).mono fun d' ⟨hc, hdisc, hmore, h⟩ ↦ ?_
  exact ⟨hc, hdisc, hmore, by rwa [← hdisc] at h⟩

/-- `Deliver_reliable_packets` raises no alarm. -/
theorem deliverReliablePackets_returns (hw : WellFormed log) (hd : Consistent log d)
    (startSeq numPackets : ℕ) :
    Returns (d.deliverReliablePackets startSeq numPackets) (Delivers log d) := by
  refine returns_foldlM (fun s _ d₁ h ↦ ?_) ⟨rfl, rfl, List.prefix_rfl, hd⟩
  have hl := h.consistent
  unfold Daemon.deliverReliablePacket
  split
  · exact returns_ok.mpr h
  · next info hp =>
      split
      · next hsingle =>
          simp only [Bool.and_eq_true, Bool.not_eq_true'] at hsingle
          refine (deliverPacket_returns hl.slots hl.handed hl.own hw hp hsingle.1
            (Or.inl ⟨rfl, hsingle.2⟩)
            hl.slots.delivered_le).mono fun d₂ ⟨hc₂, hld₂, hdisc₂, hmore₂, hs₂, hh₂, ho₂⟩ ↦ ?_
          refine ⟨hc₂.trans h.control, hdisc₂.trans h.lastDiscarded, h.messages.trans hmore₂, ?_,
            hld₂ ▸ hh₂, ?_, hdisc₂ ▸ ho₂⟩
          · rw [hld₂, hdisc₂]
            exact hs₂
          · intro q hq hqs hle
            rw [Daemon.eq_of_control Daemon.aru (fun _ ↦ rfl) hc₂]
            exact hl.safe q hq hqs (hld₂ ▸ hle)
      · exact returns_ok.mpr h

/-! ## Giving up -/

/-- The slots after the first packet that was not given up is. -/
theorem Slots.discard (hs : Slots log a b d) (hle : b + 1 ≤ a) :
    Slots log a (b + 1)
      { d with packets := Function.update d.packets (packetEntry (b + 1)) none } := by
  have hold : ∀ k info, Function.update d.packets (packetEntry (b + 1)) none k = some info →
      k ≠ packetEntry (b + 1) ∧ d.packets k = some info := by
    intro k info h
    by_cases hk : k = packetEntry (b + 1)
    · simp [hk] at h
    · exact ⟨hk, by rwa [Function.update_of_ne hk] at h⟩
  have hmy := hs.myAru_le
  have hwindow := hs.window
  constructor
  case stored =>
      intro k info h
      obtain ⟨hk, h⟩ := hold k info h
      obtain ⟨hentry, hlow, hhigh, hlog⟩ := hs.stored k info h
      refine ⟨hentry, Nat.lt_of_le_of_ne hlow fun heq ↦ hk ?_, hhigh, hlog⟩
      rw [hentry, ← heq]
  case window => exact Nat.le_trans hs.window (by omega)
  case highest_le => exact hs.highest_le
  case received =>
      intro s hlow hsle
      have hsle' : s ≤ d.myAru := hsle
      have hne : packetEntry s ≠ packetEntry (b + 1) := by
        unfold packetEntry maxPacketsInStruct at *
        omega
      change (Function.update d.packets (packetEntry (b + 1)) none (packetEntry s)).isSome
      rw [Function.update_of_ne hne]
      exact hs.received s (by omega) hsle'
  case discarded_le => exact hle
  case delivered_le => exact hs.delivered_le
  case myAru_le => exact hs.myAru_le
  case delivered => exact fun k info h ↦ hs.delivered k info (hold k info h).2
  case early => exact fun k info h ↦ hs.early k info (hold k info h).2

/-- The packets that a daemon has made, after the first packet that was not given up is. -/
theorem Own.discard (ho : Own log b d) (hwindow : d.highestSeq ≤ b + maxPacketsInStruct) :
    Own log (b + 1)
      { d with packets := Function.update d.packets (packetEntry (b + 1)) none } := by
  refine ⟨ho.le, fun q hq hmine hlow ↦ ?_, ho.fifo_le⟩
  have hle := ho.le q hq hmine
  have hne : packetEntry q.seq ≠ packetEntry (b + 1) := by
    unfold packetEntry maxPacketsInStruct at *
    omega
  change (Function.update d.packets (packetEntry (b + 1)) none (packetEntry q.seq)).isSome
  rw [Function.update_of_ne hne]
  exact ho.kept q hq hmine (Nat.lt_of_succ_lt hlow)

/-- The sessions are not concerned when a delivered packet is given up. -/
theorem Handed.discard (hh : Handed log a d) (hs : Slots log a b d) (hle : b + 1 ≤ a) :
    Handed log a { d with packets := Function.update d.packets (packetEntry (b + 1)) none } := by
  have hmy := hs.myAru_le
  have hale := hs.delivered_le
  have hdone : ∀ q : Packet n β, Done a d q ↔ Done a
      { d with packets := Function.update d.packets (packetEntry (b + 1)) none } q := by
    refine fun q ↦ or_congr_right' fun hgt ↦ ?_
    by_cases hk : packetEntry q.seq = packetEntry (b + 1)
    · suffices h : ∀ info, d.packets (packetEntry (b + 1)) = some info → info.head ≠ q by
        simp only [hk, Function.update_self, reduceCtorEq, false_and, exists_false, iff_false]
        exact fun ⟨info, hp, hq, _⟩ ↦ h info hp hq
      rintro info hp rfl
      exact hgt (Nat.le_trans (Nat.le_of_eq (hs.seq_eq (Nat.lt_succ_self b) (by omega) hp)) hle)
    · simp only [Function.update_of_ne hk]
  refine ⟨hh.up, hh.upSingle, hh.ordered, fun m hm ↦ ?_, hh.nodup⟩
  simp only [← hdone]
  exact hh.single m hm

/-- One round of the loop of `Discard_packets`. -/
theorem discardPacket_returns {ld : ℕ} (hw : WellFormed log) (hd : Local log (max ld b) b d)
    (hle : b + 1 ≤ d.aru) (haru : d.aru ≤ d.myAru) :
    Returns (d.discardPacket (b + 1)) fun d' ↦ d'.control = d.control ∧
      d'.lastDelivered = d.lastDelivered ∧ d'.lastDiscarded = d.lastDiscarded ∧
      d.messages <+: d'.messages ∧ Local log (max ld (b + 1)) (b + 1) d' := by
  have hmy := hd.slots.myAru_le
  obtain ⟨info, hp⟩ := Option.isSome_iff_exists.mp
    (hd.slots.received (b + 1) (Nat.lt_succ_self b) (by omega))
  have hseq : info.head.seq = b + 1 := hd.slots.seq_eq (Nat.lt_succ_self b) (by omega) hp
  have hsafe : SafeUpTo log (max ld (b + 1)) d := by
    intro q hq hqs hqle
    rcases Nat.lt_or_ge (b + 1) q.seq with hlt | hge
    · exact hd.safe q hq hqs (by omega)
    · exact Nat.le_trans hge hle
  -- Once the packet is delivered, what is left is to give it up.
  have hgive : ∀ d₁ : Daemon n β, (d₁.control = d.control ∧
      d₁.lastDelivered = d.lastDelivered ∧ d₁.lastDiscarded = d.lastDiscarded ∧
      d.messages <+: d₁.messages ∧ Slots log (max ld (b + 1)) b d₁ ∧
      Handed log (max ld (b + 1)) d₁ ∧ Own log b d₁) →
      Local log (max ld (b + 1)) (b + 1)
        { d₁ with packets := Function.update d₁.packets (packetEntry (b + 1)) none } := by
    rintro d₁ ⟨hc, -, -, -, hs, hh, ho⟩
    have haru₁ : d₁.aru = d.aru := Daemon.eq_of_control Daemon.aru (fun _ ↦ rfl) hc
    exact ⟨hs.discard (by omega), hh.discard hs (by omega),
      fun q hq hqs hqle ↦ haru₁ ▸ hsafe q hq hqs hqle, ho.discard hs.window⟩
  simp only [Daemon.discardPacket, hp]
  by_cases hdel : info.delivered
  · rw [if_pos hdel]
    refine returns_pure.mpr ⟨rfl, rfl, rfl, List.prefix_rfl,
      hgive d ⟨rfl, rfl, rfl, List.prefix_rfl, ?_⟩⟩
    rcases Nat.lt_or_ge b ld with hlt | hge
    · have hmax : max ld (b + 1) = max ld b := by omega
      rw [hmax]
      exact ⟨hd.slots, hd.handed, hd.own⟩
    · have hmax : max ld (b + 1) = max ld b + 1 := by omega
      have hmax' : max ld b = b := by omega
      rw [hmax]
      rw [← hmax'] at hp hseq
      exact ⟨hd.slots.skip hp (by omega) hdel, hd.handed.skip hd.slots hw hp hseq hdel, hd.own⟩
  · rw [if_neg hdel]
    have hlate : max ld b < info.head.seq := Nat.lt_of_not_le fun h ↦
      hdel (hd.slots.delivered _ info hp h)
    have hdue : Due (max ld b) (max ld (b + 1)) info.head := Or.inr ⟨by omega, by omega⟩
    refine (deliverPacket_returns hd.slots hd.handed hd.own hw hp (by simpa using hdel) hdue
      (by omega)).bind fun d₁ h₁ ↦ ?_
    exact returns_pure.mpr ⟨h₁.1, h₁.2.1, h₁.2.2.1, h₁.2.2.2.1, hgive d₁ h₁⟩

/-- `Discard_packets` raises no alarm, as long as nothing is taken to be received everywhere
that is not received here. -/
theorem discardPackets_returns (hw : WellFormed log) (hd : Consistent log d)
    (haru : d.aru ≤ d.myAru) :
    Returns d.discardPackets fun d' ↦ d'.control = d.control ∧
      d'.lastDiscarded = max d.lastDiscarded d.aru ∧ d.messages <+: d'.messages ∧
      Consistent log d' := by
  unfold Daemon.discardPackets
  split
  · next hle => exact returns_ok.mpr ⟨rfl, by omega, List.prefix_rfl, hd⟩
  · next hgt =>
      have hlow := hd.slots.discarded_le
      have hloop : Returns ((List.range' (d.lastDiscarded + 1) (d.aru - d.lastDiscarded)).foldlM
          Daemon.discardPacket d) fun d' ↦ d'.control = d.control ∧
            d'.lastDelivered = d.lastDelivered ∧ d.messages <+: d'.messages ∧
            Local log (max d.lastDelivered d.aru) d.aru d' := by
        have hend : d.lastDiscarded + 1 + (d.aru - d.lastDiscarded) = d.aru + 1 := by omega
        have hrule := returns_foldlM_range' (f := Daemon.discardPacket)
          (s := d.lastDiscarded + 1) (n := d.aru - d.lastDiscarded) (b := d)
          (I := fun k d' ↦ d'.control = d.control ∧ d'.lastDelivered = d.lastDelivered ∧
            d.messages <+: d'.messages ∧ Local log (max d.lastDelivered (k - 1)) (k - 1) d') ?_ ?_
        · rw [hend] at hrule
          simpa using hrule
        · rintro k hk hk' d₁ ⟨hc, hld, hmore, h⟩
          obtain ⟨k, rfl⟩ : ∃ j, k = j + 1 := ⟨k - 1, by omega⟩
          rw [Nat.add_sub_cancel] at h ⊢
          have haru₁ : d₁.aru = d.aru := Daemon.eq_of_control Daemon.aru (fun _ ↦ rfl) hc
          have hmy₁ : d₁.myAru = d.myAru := Daemon.eq_of_control Daemon.myAru (fun _ ↦ rfl) hc
          exact (discardPacket_returns hw h (by omega) (by omega)).mono
            fun d₂ ⟨hc₂, hld₂, _, hmore₂, h₂⟩ ↦
              ⟨hc₂.trans hc, hld₂.trans hld, hmore.trans hmore₂, h₂⟩
        · refine ⟨rfl, rfl, List.prefix_rfl, ?_⟩
          rw [Nat.add_sub_cancel, Nat.max_eq_left hlow]
          exact hd
      refine hloop.bind fun d₁ ⟨hc, hld, hmore, h⟩ ↦ returns_pure.mpr ⟨hc, ?_, hmore, ?_⟩
      · have haru₁ : d₁.aru = d.aru := Daemon.eq_of_control Daemon.aru (fun _ ↦ rfl) hc
        change d₁.aru = _
        omega
      · have haru₁ : d₁.aru = d.aru := Daemon.eq_of_control Daemon.aru (fun _ ↦ rfl) hc
        rw [← hld, ← haru₁] at h
        exact ⟨{ h.slots with }, { h.handed with }, h.safe, { h.own with }⟩

end Spread
