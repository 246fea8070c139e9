import ReplicatedBank.Spread.FirstRound

/-!
# What the daemons guarantee

The guarantees that the daemons of a stable membership give to their sessions and to each other:
every theorem is about all states that can be reached by runs that meet the conditions
(`Settling`), from any start.  The last of these conditions concerns one visit of the token in a
run, the second one of the daemon that has the first token.  The daemons do nothing to meet it;
what happens when it is not met is shown after `received_of_discarded`.

What the sessions of a daemon have been given is compared with the packets of the membership in
the order of their numbers, and these with what was submitted at each daemon.  Everything but
reliable messages of one packet is delivered in one and the same order everywhere.
-/

namespace Spread

open Program Distributed

variable {n : ℕ} {β : Type*} {log : List (Packet n β)} {a b : ℕ} {d : Daemon n β}
variable {p q : Packet n β} {m m' : MessageLink n β}

/-! ## Messages and their packets -/

/-- A message is completed by a packet of the membership. -/
theorem exists_packet_of_message (hm : m ∈ (assemble log).messages) :
    ∃ p ∈ log, p.seq = m.seq ∧ p.procId = m.procId ∧ p.type = m.type := by
  induction log using List.reverseRecOn with
  | nil => cases hm
  | append_singleton log p ih =>
      rw [assemble_concat, push_messages, List.mem_append] at hm
      rcases hm with hm | hm
      · obtain ⟨q, hq, h⟩ := ih hm
        exact ⟨q, List.mem_append_left _ hq, h⟩
      · obtain ⟨hseq, hproc, htype⟩ := seq_of_mem_completed hm
        exact ⟨p, by simp, hseq.symm, hproc.symm, htype.symm⟩

/-- A single packet is a message by itself. -/
theorem message_mem_of_single (hp : p ∈ log) (hs : p.isSingle) :
    p.message ∈ (assemble log).messages := by
  induction log using List.reverseRecOn with
  | nil => cases hp
  | append_singleton log q ih =>
      rw [assemble_concat, push_messages, List.mem_append]
      rcases List.mem_append.mp hp with hp | hp
      · exact Or.inl (ih hp)
      · obtain rfl := List.mem_singleton.mp hp
        exact Or.inr (by simp [completed_of_single hs])

/-- Messages have different numbers. -/
theorem WellFormed.nodup_seq (hw : WellFormed log) :
    ((assemble log).messages.map MessageLink.seq).Nodup :=
  List.pairwise_map.mpr (hw.messages_sorted.1.imp Nat.ne_of_lt)

/-- What the sessions have been given are messages of the membership. -/
theorem Handed.subset (hh : Handed log a d) : d.messages ⊆ (assemble log).messages := by
  intro m hm
  by_cases hs : m.isSingle
  · obtain ⟨p, hp, hps, rfl, -⟩ := (hh.single m hs).mp hm
    exact message_mem_of_single hp hps
  · have hmem : m ∈ (assemble (log.take a)).messages.filter fun m ↦ !m.isSingle := by
      rw [← hh.ordered]
      exact List.mem_filter.mpr ⟨hm, by simpa using hs⟩
    have hinit := messages_isPrefix (log.take a) (log.drop a)
    rw [List.take_append_drop] at hinit
    exact hinit.subset (List.mem_filter.mp hmem).1

/-- No message is given twice. -/
theorem Handed.nodup_messages (hh : Handed log a d) (hw : WellFormed log) :
    d.messages.Nodup := by
  have hsplit := List.filter_append_perm MessageLink.isSingle d.messages
  refine hsplit.nodup_iff.mp (List.Nodup.append (hh.nodup.of_map _) ?_ ?_)
  · rw [hh.ordered]
    have hinit := messages_isPrefix (log.take a) (log.drop a)
    rw [List.take_append_drop] at hinit
    exact (hw.nodup_seq.of_map _).sublist (List.filter_sublist.trans hinit.sublist)
  · intro m hm hm'
    have h := (List.mem_filter.mp hm).2
    have h' := (List.mem_filter.mp hm').2
    rw [h] at h'
    cases h'

/-- What the sessions have been given in order are the first of the membership's messages. -/
theorem Handed.ordered_isPrefix (hh : Handed log a d) :
    (d.messages.filter fun m ↦ !m.isSingle) <+:
      (assemble log).messages.filter fun m ↦ !m.isSingle := by
  have hinit := messages_isPrefix (log.take a) (log.drop a)
  rw [List.take_append_drop] at hinit
  rw [hh.ordered]
  exact hinit.filter _

/-- A safe message that the sessions have been given is below `Aru`. -/
theorem Local.seq_le_of_safe (hd : Local log a b d) (hw : WellFormed log) (hm : m ∈ d.messages)
    (hs : m.type.isSafe) : m.seq ≤ d.aru := by
  have hnot : m.isSingle = false := by
    cases htype : m.type <;>
      simp_all [MessageLink.isSingle, PacketType.isReliable, PacketType.isSafe]
  have hmem : m ∈ (assemble (log.take a)).messages.filter fun m ↦ !m.isSingle := by
    rw [← hd.handed.ordered]
    exact List.mem_filter.mpr ⟨hm, by simpa using hnot⟩
  obtain ⟨p, hp, hseq, -, htype⟩ := exists_packet_of_message (List.mem_filter.mp hmem).1
  rw [← hseq]
  refine hd.safe p (List.mem_of_mem_take hp) (by rwa [htype]) ?_
  obtain ⟨k, hk⟩ := List.getElem?_of_mem hp
  rw [List.getElem?_take] at hk
  split at hk
  · next hlt =>
      rw [hw.seq_eq k p hk]
      exact hlt
  · cases hk

/-! ## Reachable states -/

variable [NeZero n] [Payload β] {s : Ring n β}

variable {s' : Ring n β} {es : List (Event n β)}

theorem Safe.run (h : Safe s) (hc : ring.Along Orderly s es) (hr : ring.run s es = some s') :
    Safe s' :=
  Machine.run_invariant (fun _ _ _ ↦ Safe.step) h hc hr

/-- The states that the daemons of a membership can get into. -/
def Reachable (s : Ring n β) : Prop :=
  ∃ (segIndex : Fin n → ℕ) (visits : ℕ) (first : Token n) (es : List (Event n β)),
    ring.Along (Settling visits first) (Ring.start segIndex visits first) es ∧
      ring.run (Ring.start segIndex visits first) es = some s

theorem Reachable.safe (h : Reachable s) : Safe s :=
  let ⟨_, _, _, _, hc, hr⟩ := h
  safe_of_run (along_orderly_of_settling hc) hr

/-- What the sessions have been given stays with them. -/
theorem Safe.messages_isPrefix (h : Safe s) (hc : ring.Along Orderly s es)
    (hr : ring.run s es = some s') {i : Fin n} {d' : Daemon n β} (hd : s.daemon i = .ok d)
    (hd' : s'.daemon i = .ok d') : d.messages <+: d'.messages := by
  induction es generalizing s d with
  | nil =>
      cases hr
      rw [Except.ok.inj (hd.symm.trans hd')]
  | cons e es ih =>
      obtain ⟨t, ht, hr⟩ := Machine.run_cons.mp hr
      obtain ⟨ds, holds, hinv⟩ := h.step hc.1 ht
      have hnext := ih ⟨ds, holds, hinv⟩ (hc.2 t ht) hr (hinv.daemon i)
      obtain ⟨ds₀, holds₀, hinv₀⟩ := h
      exact ((hinv₀.moves hc.1.fresh hc.1.fits ht).messages hinv₀ hd (hinv.daemon i)).trans hnext

omit [Payload β] in
/-- The daemon that there is. -/
theorem Inv.eq_of_ok {ds : Fin n → Daemon n β} {holds : Fin n → Prop} (h : Inv s ds holds)
    {i : Fin n} (hi : s.daemon i = .ok d) : ds i = d :=
  Except.ok.inj ((h.daemon i).symm.trans hi)

/-! ## Three daemons -/

/-- In examples a piece is nothing but its length. -/
instance : Payload ℕ := ⟨fun k ↦ min k 1436, fun _ ↦ Nat.min_le_right _ _⟩

/-- The first token as it is in most memberships: it carries more than is in use, and nobody of the
membership wrote it. -/
def sampleFirst : Token 3 := ⟨0, 0, 0, 3333, none, 0, []⟩

/-- Three daemons. -/
def sampleStart : Ring 3 ℕ := .start (fun _ ↦ 0) 0 sampleFirst

/-- A message at the first daemon, which at its second visit takes the number on the token for its
own; at the second daemon a safe message of two pieces and a reliable one of one piece, in one
network packet whose send fails and which the third daemon gets only when it has asked for it; the
token goes around until all of it is delivered; and one more message, which the first daemon does
not receive. -/
def sampleRun : List (Event 3 ℕ) :=
  [.message 0 ⟨.fifo, [5], by decide, by decide⟩, .token 0 [], .packets 1 0, .packets 2 0,
    .token 1 [], .token 2 [], .message 1 ⟨.safe, [7, 3], by decide, by decide⟩,
    .message 1 ⟨.reliable, [9], by decide, by decide⟩, .token 3 [], .token 4 [false],
    .packets 0 1, .token 5 [], .token 6 [true, false], .packets 2 3, .packets 2 2, .packets 2 4,
    .token 7 [], .token 8 [], .token 9 [], .token 10 [], .token 11 [], .token 12 [],
    .message 2 ⟨.agreed, [2], by decide, by decide⟩, .token 13 [], .token 14 [], .packets 1 5]

theorem isSome_sampleRun : (ring.run sampleStart sampleRun).isSome := by decide +kernel

/-- The state that the run leads to. -/
def sample : Ring 3 ℕ := (ring.run sampleStart sampleRun).get isSome_sampleRun

theorem run_sample : ring.run sampleStart sampleRun = some sample :=
  (Option.some_get isSome_sampleRun).symm

omit [NeZero n] [Payload β] in
theorem eq_ok_of_toOption {x : Except Alarm (Daemon n β)} (h : x.toOption = some d) :
    x = .ok d := by
  cases x with
  | error alarm => cases h
  | ok d' => rw [Option.some.inj h]

theorem isSome_sample (i : Fin 3) : (sample.daemon i).toOption.isSome := by
  revert i
  decide +kernel

/-- The daemons in this state. -/
def sampleDaemon (i : Fin 3) : Daemon 3 ℕ := (sample.daemon i).toOption.get (isSome_sample i)

theorem sample_daemon (i : Fin 3) : sample.daemon i = .ok (sampleDaemon i) :=
  eq_ok_of_toOption (Option.some_get (isSome_sample i)).symm

/-! ## The daemons among themselves -/

theorem settling_sampleRun : ring.Along (Settling 0 sampleFirst) sampleStart sampleRun := by
  decide +kernel

theorem sample_reachable : Reachable sample :=
  ⟨_, 0, sampleFirst, sampleRun, settling_sampleRun, run_sample⟩

/-- **No alarm.**  Every daemon is at work in every state. -/
theorem daemon_at_work (h : Reachable s) (i : Fin n) : ∃ d, s.daemon i = .ok d :=
  let ⟨ds, _, h⟩ := h.safe
  ⟨ds i, h.daemon i⟩

theorem daemon_at_work_sample : ∃ d, sample.daemon 2 = .ok d := daemon_at_work sample_reachable 2

/-- **Stability.**  What a daemon has given up for retransmission, or takes to be received
everywhere, has been received by every daemon. -/
theorem received_of_discarded (h : Reachable s) {i j : Fin n} {di dj : Daemon n β}
    (hi : s.daemon i = .ok di) (hj : s.daemon j = .ok dj) :
    di.lastDiscarded ≤ dj.myAru ∧ di.aru ≤ dj.myAru := by
  obtain ⟨ds, holds, h⟩ := h.safe
  obtain rfl := h.eq_of_ok hi
  obtain rfl := h.eq_of_ok hj
  have hsound := (h.carries (ds (turn s.visits - 1)).lastToken (Or.inl rfl)).sound
  have hstable : (ds i).aru ≤ (ds j).myAru := hsound.stable_le_received i j
  exact ⟨(h.discarded i).trans_le hstable, hstable⟩

theorem received_of_discarded_sample :
    (sampleDaemon 0).lastDiscarded ≤ (sampleDaemon 1).myAru ∧
      (sampleDaemon 0).aru ≤ (sampleDaemon 1).myAru :=
  received_of_discarded sample_reachable (sample_daemon 0) (sample_daemon 1)

/-- What the condition on the second visit shuts out.  The first token carries more than is in use,
so the first daemon marks all that it has, and takes this for its own number when it comes back:
but now the third keeps the number down, for a packet of the second. -/
def staleRun : List (Event 3 ℕ) :=
  [.message 0 ⟨.fifo, [5], by decide, by decide⟩, .message 1 ⟨.safe, [7], by decide, by decide⟩,
    .token 0 [], .packets 1 0, .packets 2 0, .token 1 [], .token 2 [], .packets 0 1, .token 3 [],
    .token 4 []]

/-- The second daemon gives its packet up, and hands its sessions the safe message in it, though the
third has not received it. -/
example : ring.Along (fun s e ↦ Fresh s e ∧ Fits s e) sampleStart staleRun ∧
    (ring.run sampleStart staleRun).map (fun s ↦
      ((s.daemon 1).toOption.map fun d ↦ (d.lastDiscarded, d.messages.getLast?),
        (s.daemon 2).toOption.map Daemon.myAru)) =
      some (some (2, some ⟨.safe, 1, 2, [7]⟩), some 1) := by
  decide +kernel

/-- **No loss.**  A packet of the membership that some daemon has not received is still in the slots
of the daemon that made it. -/
theorem packet_kept (h : Reachable s) (hp : p ∈ s.log) (hd : s.daemon p.procId = .ok d) {j : Fin n}
    {dj : Daemon n β} (hj : s.daemon j = .ok dj) (hlack : dj.myAru < p.seq) :
    ∃ info, d.packets (packetEntry p.seq) = some info ∧ info.head = p := by
  have hdisc := (received_of_discarded h hd hj).1
  obtain ⟨ds, holds, h⟩ := h.safe
  obtain rfl := h.eq_of_ok hd
  have hc := h.consistent p.procId
  have hmine : p.procId = (ds p.procId).my.id := (h.my_id _).symm
  have hlow : (ds p.procId).lastDiscarded < p.seq := hdisc.trans_lt hlack
  obtain ⟨info, hinfo⟩ := Option.isSome_iff_exists.mp (hc.own.kept p hp hmine hlow)
  have hseq := hc.slots.seq_eq hlow (hc.own.le p hp hmine) hinfo
  exact ⟨info, hinfo, hc.slots.head_eq hinfo (h.wellFormed.seq_le hp).2.2 hseq⟩

/-- The last packet of the run. -/
def samplePacket : Packet 3 ℕ := ⟨.agreed, 2, 5, 1, -1, 2⟩

theorem packet_kept_sample : ∃ info,
    (sampleDaemon 2).packets (packetEntry samplePacket.seq) = some info ∧
      info.head = samplePacket :=
  packet_kept sample_reachable (by decide +kernel) (sample_daemon samplePacket.procId)
    (sample_daemon 0) (by decide +kernel)

/-- **The window.**  The numbers in use are within a fixed distance from what any daemon takes to
be received everywhere, less than the number of slots; and an `int32` can hold them. -/
theorem window_bound (h : Reachable s) {i : Fin n} (hi : s.daemon i = .ok d) :
    s.log.length ≤ d.aru + 8160 ∧ 8160 < maxPacketsInStruct ∧ s.log.length < maxInt32 := by
  obtain ⟨ds, holds, h⟩ := h.safe
  obtain rfl := h.eq_of_ok hi
  exact ⟨h.window i, by decide, h.fits⟩

theorem window_bound_sample : sample.log.length ≤ (sampleDaemon 0).aru + 8160 ∧
    8160 < maxPacketsInStruct ∧ sample.log.length < maxInt32 :=
  window_bound sample_reachable (sample_daemon 0)

/-- **Numbers.**  Of all packets that are on their way, or in the slots of a daemon, two with the
same number are the same packet. -/
theorem packet_eq_of_seq_eq (h : Reachable s)
    (hp : (∃ ps ∈ s.packets, p ∈ ps) ∨
      ∃ i d k info, s.daemon i = .ok d ∧ d.packets k = some info ∧ info.head = p)
    (hq : (∃ ps ∈ s.packets, q ∈ ps) ∨
      ∃ i d k info, s.daemon i = .ok d ∧ d.packets k = some info ∧ info.head = q)
    (heq : p.seq = q.seq) : p = q := by
  obtain ⟨ds, holds, h⟩ := h.safe
  have hmem : ∀ {p : Packet n β}, ((∃ ps ∈ s.packets, p ∈ ps) ∨
      ∃ i d k info, s.daemon i = .ok d ∧ d.packets k = some info ∧ info.head = p) →
      s.log[p.seq - 1]? = some p := by
    rintro p (⟨ps, hps, hp⟩ | ⟨i, d, k, info, hi, hk, rfl⟩)
    · exact (h.wellFormed.seq_le (h.packets ps hps p hp)).2.2
    · obtain rfl := h.eq_of_ok hi
      exact ((h.consistent i).slots.stored k info hk).2.2.2
  have hp := hmem hp
  rw [heq, hmem hq] at hp
  exact (Option.some.inj hp).symm

theorem packet_eq_of_seq_eq_sample :
    (((sampleDaemon 1).packets 5).get (by decide +kernel)).head = samplePacket :=
  packet_eq_of_seq_eq sample_reachable
    (Or.inr ⟨1, _, 5, _, sample_daemon 1, (Option.some_get _).symm, rfl⟩)
    (Or.inl (by decide +kernel)) (by decide +kernel)

/-- **A single token.**  A token that a daemon accepts was sent in this round by the daemon before
it, it is the turn of the daemon that accepts it, and the token carries the highest number in
use. -/
theorem turn_of_handle (h : Reachable s) {i : Fin n} {r : ℕ} {t : Token n}
    (ht : (i, r, t) ∈ s.tokens) (hfresh : rounds s.visits i < r + 15)
    (hd : s.daemon (i + 1) = .ok d) (hv : d.verdict t = .handle) :
    i + 1 = turn s.visits ∧ t.seq = s.log.length := by
  obtain ⟨ds, holds, h⟩ := h.safe
  obtain rfl := h.eq_of_ok hd
  obtain ⟨hturn, hc⟩ := h.current_of_handle ht hfresh hv
  exact ⟨hturn, (h.carries t hc).seq⟩

theorem turn_of_handle_sample :
    (2 + 1 : Fin 3) = turn sample.visits ∧ (sampleDaemon 2).lastToken.seq = sample.log.length :=
  turn_of_handle (r := 5) sample_reachable (by decide +kernel) (by decide +kernel)
    (sample_daemon (2 + 1)) (by decide +kernel)

/-! ## What the sessions are given -/

/-- **Total order.**  Of what the sessions of two daemons have been given by two points of a run,
other than reliable messages of one packet, one is the beginning of the other. -/
theorem total_order {segIndex : Fin n → ℕ} {visits : ℕ} {first : Token n} {fs : List (Event n β)}
    (hc : ring.Along (Settling visits first) (Ring.start segIndex visits first) (es ++ fs))
    (hs : ring.run (Ring.start segIndex visits first) es = some s)
    (hs' : ring.run s fs = some s') {i j : Fin n} {di dj : Daemon n β}
    (hi : s.daemon i = .ok di) (hj : s'.daemon j = .ok dj) :
    (di.messages.filter fun m ↦ !m.isSingle) <+: (dj.messages.filter fun m ↦ !m.isSingle) ∨
      (dj.messages.filter fun m ↦ !m.isSingle) <+: (di.messages.filter fun m ↦ !m.isSingle) := by
  obtain ⟨hes, hfs⟩ := Machine.along_append.mp (along_orderly_of_settling hc)
  have hsafe : Safe s := safe_of_run hes hs
  obtain ⟨ds, holds, h'⟩ := hsafe.run (hfs s hs) hs'
  obtain rfl := h'.eq_of_ok hj
  have hmore := hsafe.messages_isPrefix (hfs s hs) hs' hi (h'.daemon i)
  exact List.prefix_or_prefix_of_prefix
    ((hmore.filter _).trans (h'.consistent i).handed.ordered_isPrefix)
    (h'.consistent j).handed.ordered_isPrefix

theorem isSome_sampleNext : (ring.run sample [.packets 0 5]).isSome := by decide +kernel

/-- The state after the first daemon has received the packet that it lacks. -/
def sampleNext : Ring 3 ℕ := (ring.run sample [.packets 0 5]).get isSome_sampleNext

theorem run_sampleNext : ring.run sample [.packets 0 5] = some sampleNext :=
  (Option.some_get isSome_sampleNext).symm

theorem settling_sampleNext :
    ring.Along (Settling 0 sampleFirst) sampleStart (sampleRun ++ [.packets 0 5]) := by
  decide +kernel

theorem isSome_sampleNext_daemon : (sampleNext.daemon 0).toOption.isSome := by decide +kernel

/-- The first daemon in this state. -/
def sampleNextDaemon : Daemon 3 ℕ := (sampleNext.daemon 0).toOption.get isSome_sampleNext_daemon

theorem sampleNext_daemon : sampleNext.daemon 0 = .ok sampleNextDaemon :=
  eq_ok_of_toOption (Option.some_get isSome_sampleNext_daemon).symm

theorem total_order_sample :
    ((sampleDaemon 1).messages.filter fun m ↦ !m.isSingle) <+:
        (sampleNextDaemon.messages.filter fun m ↦ !m.isSingle) ∨
      (sampleNextDaemon.messages.filter fun m ↦ !m.isSingle) <+:
        ((sampleDaemon 1).messages.filter fun m ↦ !m.isSingle) :=
  total_order settling_sampleNext run_sample run_sampleNext (sample_daemon 1) sampleNext_daemon

/-- **Integrity.**  What the sessions of a daemon have been given from another was submitted
there, and was given at most as often as it was submitted. -/
theorem messages_subperm (h : Reachable s) {i j : Fin n} (hi : s.daemon i = .ok d) :
    ((d.messages.filter fun m ↦ m.procId = j).map MessageLink.content).Subperm
      ((s.submitted j).map DownLink.content) := by
  obtain ⟨ds, holds, h⟩ := h.safe
  obtain rfl := h.eq_of_ok hi
  have hall : (ds i).messages.Subperm (assemble s.log).messages :=
    ((h.consistent i).handed.nodup_messages h.wellFormed).subperm (h.consistent i).handed.subset
  have hsent := (h.sender j).sent
  rw [h.my_id] at hsent
  rw [← hsent]
  refine List.Subperm.trans ?_ (List.sublist_append_left _ _).subperm
  obtain ⟨l, hperm, hsub⟩ := hall.filter fun m ↦ m.procId = j
  exact ⟨l.map _, hperm.map _, hsub.map _⟩

theorem messages_subperm_sample :
    (((sampleDaemon 0).messages.filter fun m ↦ m.procId = 1).map MessageLink.content).Subperm
      ((sample.submitted 1).map DownLink.content) :=
  messages_subperm sample_reachable (sample_daemon 0)

/-- **First in, first out.**  What the sessions of a daemon have been given from another, other
than reliable messages of one packet, is the beginning of what was submitted there: nothing is
left out, and nothing is given twice. -/
theorem ordered_isPrefix_submitted (h : Reachable s) {i j : Fin n} (hi : s.daemon i = .ok d) :
    (d.messages.filter fun m ↦ !m.isSingle && m.procId = j).map MessageLink.content <+:
      ((s.submitted j).filter fun m ↦ !m.isSingle).map DownLink.content := by
  obtain ⟨ds, holds, h⟩ := h.safe
  obtain rfl := h.eq_of_ok hi
  have hinit := ((h.consistent i).handed.ordered_isPrefix.filter fun m ↦ m.procId = j).map
    MessageLink.content
  rw [List.filter_comm, List.filter_filter, List.filter_comm, List.filter_filter] at hinit
  have hsent := congrArg (List.filter fun c : PacketType × List β ↦
    !(c.1.isReliable && c.2.length == 1)) (h.sender j).sent
  rw [h.my_id, List.filter_append, List.filter_map, List.filter_map, List.filter_map,
    List.filter_filter] at hsent
  exact hinit.trans ⟨_, hsent⟩

theorem ordered_isPrefix_submitted_sample :
    ((sampleDaemon 0).messages.filter fun m ↦ !m.isSingle && m.procId = 1).map
        MessageLink.content <+:
      ((sample.submitted 1).filter fun m ↦ !m.isSingle).map DownLink.content :=
  ordered_isPrefix_submitted sample_reachable (sample_daemon 0)

/-- **Safe messages** are given to the sessions of a daemon only when they are received by every
daemon. -/
theorem received_of_safe (h : Reachable s) {i j : Fin n} {di dj : Daemon n β}
    (hi : s.daemon i = .ok di) (hj : s.daemon j = .ok dj) (hm : m ∈ di.messages)
    (hs : m.type.isSafe) : m.seq ≤ dj.myAru := by
  obtain ⟨ds, holds, hinv⟩ := h.safe
  obtain rfl := hinv.eq_of_ok hi
  exact ((hinv.consistent i).seq_le_of_safe hinv.wellFormed hm hs).trans
    (received_of_discarded h hi hj).2

theorem received_of_safe_sample : (⟨.safe, 1, 3, [7, 3]⟩ : MessageLink 3 ℕ).seq ≤
    (sampleDaemon 0).myAru :=
  received_of_safe sample_reachable (sample_daemon 1) (sample_daemon 0) (by decide +kernel) rfl

end Spread
