import ReplicatedBank.FixedGroup

/-!
# The order in which a replica issued its transactions

A replica multicasts its outstanding collection again and again; copies that come back
remove entries from it, in the middle as well as at the front, and a batch may break off
anywhere.  Still, the first copies of its stream come in the order in which it accepted
them.  The invariant (`Issuing`) splits what has been accepted into what has been
multicast at least once, in this order, and a rest that has not: the rest is the end
of the outstanding collection, and what precedes it there has all been multicast before.

Since receivers execute first copies only, and FIFO delivery shows them a prefix of the
stream, they execute a prefix of what was accepted (`executed_issueOrder`).  All this
needs different transactions to have different ids, which the 32-bit counter provides for
the first `2 ^ 32` of them.
-/

namespace ReplicatedBank

open Distributed

/-! ## The stream of one replica -/

/-- The invariant between a replica and its stream. -/
structure Issuing (p : Process) (sent : List Packet) : Prop where
  numbered : p.Numbered
  sent_subset : transactions sent ⊆ p.accepted
  outstanding_subset : p.outstanding ⊆ p.accepted
  split : p.accepted.length ≤ 2 ^ 32 → ∃ old rest,
    p.accepted = firstCopies Transaction.uniqueId (transactions sent) ++ rest ∧
    p.outstanding = old ++ rest ∧ ids old ⊆ ids (transactions sent)

namespace Issuing

variable {p : Process} {sent : List Packet} {q : Packet} {k : Action}

/-- Multicasting a beginning of the outstanding collection. -/
theorem tick (h : Issuing p sent) {p' : Process} {n : ℕ} (hnum : p'.Numbered)
    (hout : p'.outstanding = p.outstanding) (hacc : p'.accepted = p.accepted) :
    Issuing p' (sent ++ p.wrap false (p.outstanding.take n)) where
  numbered := hnum
  sent_subset := by
    rw [transactions_append, Process.transactions_wrap, hacc]
    exact List.append_subset.mpr
      ⟨h.sent_subset, fun t ht ↦ h.outstanding_subset (List.mem_of_mem_take ht)⟩
  outstanding_subset := by
    rw [hout, hacc]
    exact h.outstanding_subset
  split hlen := by
    rw [hacc] at hlen
    obtain ⟨old, rest, hsplit, hold, hids⟩ := h.split hlen
    have hnodup := h.numbered.nodup_ids hlen
    rw [hsplit, ids_append, List.nodup_append] at hnodup
    -- the part of the batch that repeats, and the part that is new
    rw [transactions_append, Process.transactions_wrap, hout, hacc, hold, List.take_append,
      ← List.append_assoc]
    have hrepeat : firstCopies Transaction.uniqueId (transactions sent ++ old.take n) =
        firstCopies Transaction.uniqueId (transactions sent) :=
      firstCopies_append_of_subset fun t ht ↦
        hids (List.mem_map_of_mem (List.mem_of_mem_take ht))
    have hsublist : (ids (rest.take (n - old.length))).Sublist (ids rest) :=
      (List.take_sublist _ _).map _
    have hnew : ∀ t ∈ rest.take (n - old.length),
        t.uniqueId ∉ ids (transactions sent ++ old.take n) := by
      intro t ht hc
      have hc : t.uniqueId ∈ ids (transactions sent) := by
        rw [ids_append, List.mem_append] at hc
        exact hc.elim id fun hc ↦ hids (((List.take_sublist _ _).map _).subset hc)
      exact hnodup.2.2 _ (mem_map_firstCopies.mpr hc) _
        (hsublist.subset (List.mem_map_of_mem ht)) rfl
    refine ⟨old ++ rest.take (n - old.length), rest.drop (n - old.length), ?_, ?_, ?_⟩
    · rw [firstCopies_append_of_nodup (hnodup.2.1.sublist hsublist) hnew, hrepeat,
        List.append_assoc, List.take_append_drop, hsplit]
    · rw [List.append_assoc, List.take_append_drop]
    · rw [ids_append, ids_append, ids_append]
      exact List.append_subset.mpr ⟨fun x hx ↦ List.mem_append_left _
        (List.mem_append_left _ (hids hx)), List.subset_append_right _ _⟩

/-- Queuing a transaction. -/
theorem queue (h : Issuing p sent) {p' : Process} {t : Transaction} (hnum : p'.Numbered)
    (hout : p'.outstanding = p.outstanding ++ [t]) (hacc : p'.accepted = p.accepted ++ [t]) :
    Issuing p' sent where
  numbered := hnum
  sent_subset := by
    rw [hacc]
    exact List.Subset.trans h.sent_subset (List.subset_append_left _ _)
  outstanding_subset := by
    rw [hout, hacc]
    exact List.append_subset.mpr ⟨List.Subset.trans h.outstanding_subset
      (List.subset_append_left _ _), List.subset_append_right _ _⟩
  split hlen := by
    rw [hacc, List.length_append] at hlen
    obtain ⟨old, rest, hsplit, hold, hids⟩ := h.split (by omega)
    exact ⟨old, rest ++ [t], by rw [hacc, hsplit, List.append_assoc],
      by rw [hout, hold, List.append_assoc], hids⟩

/-- Local actions, `cleanHistory` included. -/
theorem act (h : Issuing p sent) (k : Action) : Issuing (p.act k).1 (sent ++ (p.act k).2) := by
  have hnum := h.numbered.act k
  rcases Process.act_cases p k with ⟨n, hm, ha, hs⟩ | ⟨t, -, hm, ha, hs⟩ | ⟨input, -, -, hm, ha, hs⟩
  · rw [hs]
    exact h.tick hnum (by rw [Process.outstanding, hm]) ha
  · rw [hs, List.append_nil]
    exact h.queue hnum (by rw [Process.outstanding, hm]; rfl) ha
  · rw [hs, List.append_nil]
    refine ⟨hnum, by rw [ha]; exact h.sent_subset, ?_, ?_⟩
    · rw [ha, Process.outstanding, hm]
      exact h.outstanding_subset
    · rw [ha, Process.outstanding, hm]
      exact h.split

/-- A delivery takes nothing out of the rest: what is delivered of the replica's own has
been multicast, and ids of other replicas are no ids of its own. -/
theorem receive (h : Issuing p sent)
    (hq : q ∈ sent ∨ ¬ Issued p.machine.replicaName q.transaction) :
    Issuing (p.receive q) sent where
  numbered := h.numbered.receive
  sent_subset := h.sent_subset
  outstanding_subset :=
    List.Subset.trans
      (AdvancedListener.outstandingCollection_subset p.machine q.transaction) h.outstanding_subset
  split hlen := by
    obtain ⟨old, rest, hsplit, hold, hids⟩ := h.split hlen
    by_cases hc : AdvancedListener.Consumes p.machine q.transaction
    · have hrest : ∀ t ∈ rest, ¬ (decide (t.uniqueId = q.transaction.uniqueId)) = true := by
        intro t ht hid
        have hid : t.uniqueId = q.transaction.uniqueId := of_decide_eq_true hid
        have hacc : t ∈ p.accepted := hsplit ▸ List.mem_append_right _ ht
        rcases hq with hq | hq
        · have hnodup := h.numbered.nodup_ids hlen
          rw [hsplit, ids_append, List.nodup_append] at hnodup
          exact hnodup.2.2 _ (mem_map_firstCopies.mpr (List.mem_map_of_mem
            (List.mem_map_of_mem hq))) _ (List.mem_map_of_mem ht) hid.symm
        · obtain ⟨c, hc⟩ := h.numbered.issued hacc
          exact hq ⟨c, hid.symm.trans hc⟩
      refine ⟨old.eraseP (·.uniqueId = q.transaction.uniqueId), rest, hsplit, ?_, ?_⟩
      · have herase := AdvancedListener.outstandingCollection_of_consumes hc
        rw [show p.machine.replica.outstandingCollection = old ++ rest from hold] at herase
        refine herase.trans ?_
        rw [List.eraseP_append]
        split
        · rfl
        · rename_i hany
          rw [List.eraseP_of_forall_not hrest, List.eraseP_of_forall_not]
          simpa using hany
      · exact List.Subset.trans (List.map_subset _ List.eraseP_subset) hids
    · refine ⟨old, rest, hsplit, ?_, hids⟩
      exact (AdvancedListener.outstandingCollection_of_not_consumes hc).trans hold

/-- The first copies that have been multicast are a beginning of what was accepted. -/
theorem monetary_isPrefix (h : Issuing p sent) (hlen : p.accepted.length ≤ 2 ^ 32) :
    firstCopies Transaction.uniqueId (monetary (transactions sent)) <+: monetary p.accepted := by
  obtain ⟨old, rest, hsplit, -, -⟩ := h.split hlen
  have hnodup := h.numbered.nodup_ids hlen
  have hkey : ∀ t ∈ transactions sent, t.isMonetary =
      decide (t.uniqueId ∈ ids (monetary p.accepted)) := by
    intro t ht
    have hmem : t.uniqueId ∈ ids (monetary p.accepted) ↔ t.isMonetary := by
      refine ⟨fun hm ↦ ?_, fun hm ↦ List.mem_map_of_mem (mem_monetary.mpr ⟨h.sent_subset ht, hm⟩)⟩
      obtain ⟨u, hu, hid⟩ := List.mem_map.mp hm
      rw [mem_monetary] at hu
      rw [← List.inj_on_of_nodup_map hnodup hu.1 (h.sent_subset ht) hid]
      exact hu.2
    simp [hmem]
  rw [monetary, ← firstCopies_filter (q := fun x ↦ decide (x ∈ ids (monetary p.accepted))) hkey,
    hsplit, monetary_append]
  exact List.prefix_append _ _

end Issuing

/-! ## What receivers execute -/

section

variable {ι : Type*} [DecidableEq ι] {G : Group ι} {s : Fifo.State ι Process Packet}
variable {es : List (Fifo.Event ι Action)} {i r : ι}

/-- Every replica keeps its name and the invariant of its stream. -/
theorem issuing (hr : G.system.run G.start es = some s) (i : ι) :
    (s.node i).machine.replicaName = G.name i ∧ Issuing (s.node i) (s.sent i) := by
  refine Fifo.stream_invariant (A := bank fun i ↦ (G.node i).machine.privateGroup)
    (C := fun _ _ ↦ True)
    (I := fun i p sent ↦ p.machine.replicaName = G.name i ∧ Issuing p sent)
    ?_ ?_ ?_ (Machine.along_true _ _) hr i
  · rintro s i k - ⟨hname, h⟩
    exact ⟨(Process.act_replicaName).trans hname, h.act k⟩
  · intro s r j q h hq
    refine ⟨Process.receive_replicaName.trans (h r).1, ?_⟩
    show Issuing _ (s.sent r ++ [])
    rw [List.append_nil]
    refine (h r).2.receive ?_
    by_cases hj : j = r
    · exact .inl (hj ▸ hq)
    · refine .inr fun hissued ↦ hj ?_
      have hj' : Issued (s.node j).machine.replicaName q.transaction :=
        (h j).2.numbered.issued ((h j).2.sent_subset (List.mem_map_of_mem hq))
      rw [(h j).1] at hj'
      rw [(h r).1] at hissued
      exact G.name_injective (hj'.name_eq hissued rfl)
  · intro i
    have hacc : (G.node i).accepted = [] := G.accepted_eq i
    have hout : (G.node i).outstanding = [] := G.outstanding_eq i
    refine ⟨rfl, ⟨?_, by simp [hacc]⟩, by simp, by simp [hout], fun _ ↦ ⟨[], [], ?_⟩⟩
    · rw [hacc]
      exact G.outstandingCounter_eq i
    · simp [hacc, hout]

theorem issued_of_mem_accepted (hr : G.system.run G.start es = some s) {t : Transaction}
    (ht : t ∈ accepted s i) : Issued (G.name i) t :=
  (issuing hr i).1 ▸ (issuing hr i).2.numbered.issued ht

/-- What is delivered was accepted by its sender. -/
theorem mem_accepted_of_mem_delivered (hr : G.system.run G.start es = some s) {q : Packet}
    (hq : (i, q) ∈ s.delivered r) : q.transaction ∈ accepted s i :=
  (issuing hr i).2.sent_subset (List.mem_map_of_mem
    ((Fifo.received_isPrefix hr r i).subset (Fifo.mem_received.mpr hq)))

/-- The deliveries of a replica's transactions are the deliveries from that replica. -/
theorem filter_delivered (hr : G.system.run G.start es = some s) (r i : ι) :
    (delivered s r).filter (· ∈ accepted s i) = transactions (s.received r i) := by
  have hfilter := Fifo.filter_history_eq_filter_received (s := s) (r := r) (i := i)
    (p := fun q ↦ q.transaction ∈ accepted s i) fun j q hq hp ↦
      G.name_injective ((issued_of_mem_accepted hr (mem_accepted_of_mem_delivered hr hq)).name_eq
        (issued_of_mem_accepted hr (of_decide_eq_true hp)) rfl)
  have hall : ∀ q ∈ s.received r i, decide (q.transaction ∈ accepted s i) = true := fun q hq ↦
    decide_eq_true (mem_accepted_of_mem_delivered hr (Fifo.mem_received.mp hq))
  rw [List.filter_eq_self.mpr hall] at hfilter
  rw [delivered, transactions, List.filter_map, ← hfilter]
  rfl

/-- **Program order.**  Everything a replica executes was accepted by some replica, and
the transactions of an issuer that it executes are, in list order, a beginning of the
`DEPOSIT`s and `INTEREST`s that the issuer accepted, as long as there are at most `2 ^ 32`
transactions of that issuer. -/
theorem executed_issueOrder (G : Group ι) (hk : ∀ e ∈ es, ¬ cleansHistory e)
    (hr : G.system.run G.start es = some s) (r : ι) :
    (∀ t ∈ executedList s r, ∃ i, t ∈ accepted s i) ∧
    ∀ i, (accepted s i).length ≤ 2 ^ 32 →
      (executedList s r).filter (· ∈ accepted s i) <+: monetary (accepted s i) := by
  have hmem : ∀ t ∈ delivered s r, ∃ i, t ∈ accepted s i := by
    intro t ht
    obtain ⟨q, hq, rfl⟩ := List.mem_map.mp ht
    obtain ⟨i, hi⟩ := Fifo.mem_delivered_history hq
    exact ⟨i, mem_accepted_of_mem_delivered hr hi⟩
  rw [executedList_eq_firstCopies hk hr]
  refine ⟨fun t ht ↦ hmem t (mem_monetary.mp (mem_of_mem_firstCopies ht)).1, fun i hlen ↦ ?_⟩
  -- ownership of a delivered transaction can be read off its id
  have hkey : ∀ t ∈ monetary (delivered s r), decide (t ∈ accepted s i) =
      decide (t.uniqueId ∈ ids (accepted s i)) := by
    intro t ht
    obtain ⟨j, hj⟩ := hmem t (mem_monetary.mp ht).1
    rw [decide_eq_decide]
    refine ⟨fun h ↦ List.mem_map_of_mem h, fun h ↦ ?_⟩
    obtain ⟨u, hu, hid⟩ := List.mem_map.mp h
    rwa [← G.name_injective
      ((issued_of_mem_accepted hr hj).name_eq (issued_of_mem_accepted hr hu) hid.symm)]
  have hcomm : (monetary (delivered s r)).filter (· ∈ accepted s i) =
      monetary (transactions (s.received r i)) := by
    rw [monetary, List.filter_comm, filter_delivered hr, monetary]
  rw [firstCopies_filter (q := fun x ↦ decide (x ∈ ids (accepted s i))) hkey, hcomm]
  exact (firstCopies_isPrefix (((Fifo.received_isPrefix hr r i).map _).filter _)).trans
    ((issuing hr i).2.monetary_isPrefix hlen)

end

/-! ## Beyond `2 ^ 32` transactions -/

open Process (deposited syncedBalance)

/-- A replica that has its group to itself. -/
def alone : Group (Fin 1) where
  node _ := .started "Rep1" "#Rep1" 1 0
  balance := 0
  name_injective := Function.injective_of_subsingleton _
  balance_eq _ := rfl
  executedList_eq _ := rfl
  outstanding_eq _ := rfl
  outstandingCounter_eq _ := rfl
  accepted_eq _ := rfl

/-- Two replicas that multicast partial and overlapping batches; neither has been delivered
everything. -/
def batches : List (Fifo.Event (Fin 2) Action) :=
  [.act 0 (.command "deposit 1"), .act 0 (.command "addInterest 10"),
    .act 0 (.command "deposit 2"), .act 0 (.tick 2), .act 1 (.command "deposit 3"),
    .act 1 (.tick 1), .deliver 1 0, .act 0 (.tick 3), .deliver 1 0, .deliver 0 1, .deliver 1 0,
    .deliver 0 0, .act 1 (.command "deposit 4"), .act 1 (.tick 2), .deliver 1 0, .deliver 1 0,
    .deliver 0 0, .deliver 0 1]

theorem executed_issueOrder_batches : ∃ s, pair.system.run pair.start batches = some s ∧
    (executedList s 0).length = 3 ∧ (executedList s 1).length = 3 ∧
    ∀ r i, (executedList s r).filter (· ∈ accepted s i) <+: monetary (accepted s i) := by
  have h : (pair.system.run pair.start batches).any fun s ↦ (executedList s 0).length = 3 ∧
      (executedList s 1).length = 3 ∧ ∀ i, (accepted s i).length ≤ 3 := by decide +kernel
  obtain ⟨s, hs, h⟩ := (Option.any_eq_true _ _).mp h
  obtain ⟨h₀, h₁, hlen⟩ := of_decide_eq_true h
  exact ⟨s, hs, h₀, h₁, fun r i ↦ (executed_issueOrder pair (by decide +kernel) hs r).2 i
    ((hlen i).trans (by decide))⟩

/-- The replica on its own, with what it has multicast and not been delivered yet. -/
structure Alone (s : Fifo.State (Fin 1) Process Packet) (c : Client) (ts : List Transaction)
    (n : ℕ) (inFlight : List Transaction) : Prop where
  reads : (s.node 0).Reads "Rep1" c ts n
  sent_eq : transactions (s.sent 0) = transactions (s.received 0 0) ++ inFlight

namespace Alone

variable {s : Fifo.State (Fin 1) Process Packet} {c c' : Client} {ts ts' : List Transaction}
variable {n n' : ℕ} {inFlight sent : List Transaction} {t : Transaction} {k : Action}

theorem act (h : Alone s c ts n inFlight)
    (hr : ((s.node 0).act k).1.Reads "Rep1" c' ts' n')
    (hs : transactions ((s.node 0).act k).2 = sent) :
    ∃ s', alone.system.step s (.act 0 k) = some s' ∧ Alone s' c' ts' n' (inFlight ++ sent) := by
  refine ⟨_, Fifo.step_act.mpr rfl, ?_, ?_⟩
  · rw [Fifo.commit_node_self]
    exact hr
  · rw [Fifo.commit_sent_self, Fifo.commit_received, transactions_append, h.sent_eq,
      List.append_assoc, ← hs]
    rfl

theorem deliver (h : Alone s c ts n (t :: inFlight))
    (hr : ∀ q : Packet, q.transaction = t → ((s.node 0).receive q).Reads "Rep1" c' ts n) :
    ∃ s', alone.system.step s (.deliver 0 0) = some s' ∧ Alone s' c' ts n inFlight := by
  have hsent := h.sent_eq
  have hlen : (s.received 0 0).length < (s.sent 0).length := by
    have := congrArg List.length hsent
    simp only [transactions, List.length_map, List.length_append, List.length_cons] at this
    omega
  have hq : ((s.sent 0)[(s.received 0 0).length]).transaction = t := by
    have hget : (transactions (s.sent 0))[(s.received 0 0).length]? = some t := by
      rw [hsent, List.getElem?_append_right (by simp [transactions])]
      simp [transactions]
    rw [transactions, List.getElem?_map, List.getElem?_eq_getElem hlen] at hget
    exact Option.some.inj hget
  refine ⟨_, Fifo.step_deliver.mpr ⟨_, List.getElem?_eq_getElem hlen, rfl⟩, ?_, ?_⟩
  · rw [Fifo.record_node, Fifo.commit_node_self]
    exact hr _ hq
  · rw [Fifo.record_sent, Fifo.record_received_self, Fifo.commit_sent_self, Fifo.commit_received,
      transactions_append, transactions_append, hsent]
    simp [transactions, hq, bank]

end Alone

/-- A synced balance is queued, multicast and delivered. -/
def syncedRound : List (Fifo.Event (Fin 1) Action) :=
  [.act 0 (.command "getSyncedBalance"), .act 0 (.tick 1), .deliver 0 0]

/-- A round advances the counter and leaves everything else as it was. -/
theorem Alone.syncedRound {s : Fifo.State (Fin 1) Process Packet} {c : Client}
    {ts : List Transaction} {n : ℕ} (h : Alone s c ts n []) (hc : c.outstandingCollection = [])
    (hfresh : uniqueId "Rep1" c.outstandingCounter ∉ ids c.executedList) :
    ∃ s', alone.system.run s ReplicatedBank.syncedRound = some s' ∧
      Alone s' { c with outstandingCounter := c.outstandingCounter.incrementAndGet } ts (n + 1)
        [] := by
  obtain ⟨s₁, hs₁, h₁⟩ := h.act (h.reads.getSyncedBalance hc) rfl
  obtain ⟨s₂, hs₂, h₂⟩ := h₁.act (h₁.reads.tick 1).1 (h₁.reads.tick 1).2
  rw [show (c.addOutstandingCollection (syncedBalance "Rep1" c)).outstandingCollection =
    [syncedBalance "Rep1" c] by simp [Client.addOutstandingCollection, hc]] at h₂
  have hreceive : ∀ q : Packet, q.transaction = syncedBalance "Rep1" c →
      ((s₂.node 0).receive q).Reads "Rep1"
        { c with outstandingCounter := c.outstandingCounter.incrementAndGet } ts (n + 1) := by
    intro q hq
    have hr := h₂.reads.receive_syncedBalance (q := q) (by rw [hq]; rfl) (by rw [hq]; exact hfresh)
    rwa [hq, Process.removeOutstanding_syncedBalance hc] at hr
  obtain ⟨s₃, hs₃, h₃⟩ := h₂.deliver hreceive
  exact ⟨s₃, Machine.run_cons.mpr ⟨s₁, hs₁, Machine.run_cons.mpr ⟨s₂, hs₂,
    Machine.run_cons.mpr ⟨s₃, hs₃, rfl⟩⟩⟩, h₃⟩

/-- `uniqueId "Rep1" 0` comes up again only when the counter has wrapped around. -/
theorem Alone.syncedRounds {d : Transaction} (hd : d.uniqueId = uniqueId "Rep1" (.after 0))
    {ts : List Transaction} {n : ℕ} (hn : 0 < n) (k : ℕ) (hk : n + k ≤ 2 ^ 32)
    {s : Fifo.State (Fin 1) Process Packet} (h : Alone s ⟨1, [d], [], 1, .after n⟩ ts n []) :
    ∃ s', alone.system.run s (List.replicate k ReplicatedBank.syncedRound).flatten = some s' ∧
      Alone s' ⟨1, [d], [], 1, .after (n + k)⟩ ts (n + k) [] := by
  induction k generalizing n s with
  | zero => exact ⟨s, rfl, h⟩
  | succ k ih =>
      have hfresh : uniqueId "Rep1" (.after n) ∉ ids [d] := by
        intro hc
        have hid : uniqueId "Rep1" (.after n) = uniqueId "Rep1" (.after 0) := by
          simpa [ids, hd] using hc
        have := AtomicInteger.after_inj (by omega) (by omega) (uniqueId_inj.mp hid).2
        omega
      obtain ⟨s₁, hs₁, h₁⟩ := h.syncedRound rfl hfresh
      rw [AtomicInteger.incrementAndGet_after] at h₁
      obtain ⟨s₂, hs₂, h₂⟩ := ih (by omega) (by omega) h₁
      refine ⟨s₂, ?_, ?_⟩
      · rw [List.replicate_succ, List.flatten_cons]
        exact Machine.run_append.mpr ⟨s₁, hs₁, hs₂⟩
      · rwa [show n + (k + 1) = n + 1 + k by omega]

/-- A deposit, some synced balances, and two more deposits. -/
def wrapAround (k : ℕ) : List (Fifo.Event (Fin 1) Action) :=
  [.act 0 (.command "deposit 1"), .act 0 (.tick 1), .deliver 0 0] ++
    (List.replicate k syncedRound).flatten ++
    [.act 0 (.command "deposit 2"), .act 0 (.command "deposit 3"), .act 0 (.tick 2),
      .deliver 0 0, .deliver 0 0]

theorem not_cleansHistory_of_mem_wrapAround (k : ℕ) : ∀ e ∈ wrapAround k, ¬ cleansHistory e := by
  have hround : ∀ e ∈ syncedRound, ¬ cleansHistory e := by decide +kernel
  intro e he
  simp only [wrapAround, List.mem_append] at he
  rcases he with (he | he) | he
  · revert e
    decide +kernel
  · obtain ⟨es, hes, he⟩ := List.mem_flatten.mp he
    exact hround e (List.eq_of_mem_replicate hes ▸ he)
  · revert e
    decide +kernel

/-- The first deposit is executed. -/
theorem Alone.first : ∃ s, alone.system.run alone.start
      [.act 0 (.command "deposit 1"), .act 0 (.tick 1), .deliver 0 0] = some s ∧
    Alone s ⟨1, [deposited "Rep1" 0 1], [], 1, .after 1⟩ [deposited "Rep1" 0 1] 1 [] := by
  have h : (alone.system.run alone.start
      [.act 0 (.command "deposit 1"), .act 0 (.tick 1), .deliver 0 0]).any (fun s ↦
      ((s.node 0).machine.main = .reading ∧ (s.node 0).machine.replicaName = "Rep1" ∧
        (s.node 0).machine.replica = ⟨1, [deposited "Rep1" 0 1], [], 1, .after 1⟩ ∧
        monetary (s.node 0).accepted = [deposited "Rep1" 0 1] ∧ (s.node 0).accepted.length = 1) ∧
      transactions (s.sent 0) = transactions (s.received 0 0) ++ []) := by decide +kernel
  obtain ⟨s, hs, h⟩ := (Option.any_eq_true _ _).mp h
  obtain ⟨⟨hmain, hname, hreplica, hts, hlen⟩, hsent⟩ := of_decide_eq_true h
  exact ⟨s, hs, ⟨hmain, hname, hreplica, hts, hlen⟩, hsent⟩

/-- Once the counter is back at `0`, the second deposit is dropped and the third one
executed. -/
theorem Alone.last {s : Fifo.State (Fin 1) Process Packet} {n : ℕ}
    (h : Alone s ⟨1, [deposited "Rep1" 0 1], [], 1, 0⟩ [deposited "Rep1" 0 1] n []) :
    ∃ s', alone.system.run s [.act 0 (.command "deposit 2"), .act 0 (.command "deposit 3"),
        .act 0 (.tick 2), .deliver 0 0, .deliver 0 0] = some s' ∧
      Alone s' ⟨4, [deposited "Rep1" 0 1, deposited "Rep1" 1 3], [deposited "Rep1" 0 2], 2, 2⟩
        [deposited "Rep1" 0 1, deposited "Rep1" 0 2, deposited "Rep1" 1 3] (n + 2) [] := by
  have hsecond : Process.DepositLine "deposit 2" 2 := by decide +kernel
  have hthird : Process.DepositLine "deposit 3" 3 := by decide +kernel
  obtain ⟨s₁, hs₁, h₁⟩ := h.act (h.reads.deposit hsecond) rfl
  obtain ⟨s₂, hs₂, h₂⟩ := h₁.act (h₁.reads.deposit hthird) rfl
  obtain ⟨s₃, hs₃, h₃⟩ := h₂.act (h₂.reads.tick 2).1 (h₂.reads.tick 2).2
  have h₃ : Alone s₃ _ _ _ [deposited "Rep1" 0 2, deposited "Rep1" 1 3] := h₃
  obtain ⟨s₄, hs₄, h₄⟩ := h₃.deliver fun q hq ↦
    h₃.reads.receive_of_mem (by rw [hq]; decide +kernel)
  have hlast : ∀ q : Packet, q.transaction = deposited "Rep1" 1 3 →
      ((s₄.node 0).receive q).Reads "Rep1"
        ⟨4, [deposited "Rep1" 0 1, deposited "Rep1" 1 3], [deposited "Rep1" 0 2], 2, 2⟩
        [deposited "Rep1" 0 1, deposited "Rep1" 0 2, deposited "Rep1" 1 3] (n + 2) := by
    intro q hq
    have hr := h₄.reads.receive_deposit (q := q) (by rw [hq]; rfl)
    rw [hq] at hr
    have heq : Client.deposit ⟨1, [deposited "Rep1" 0 1],
        [deposited "Rep1" 0 2, deposited "Rep1" 1 3], 1, 2⟩ (deposited "Rep1" 1 3) 3 =
        ⟨4, [deposited "Rep1" 0 1, deposited "Rep1" 1 3], [deposited "Rep1" 0 2], 2, 2⟩ := by
      decide +kernel
    exact heq ▸ hr
  obtain ⟨s₅, hs₅, h₅⟩ := h₄.deliver hlast
  exact ⟨s₅, Machine.run_cons.mpr ⟨s₁, hs₁, Machine.run_cons.mpr ⟨s₂, hs₂,
    Machine.run_cons.mpr ⟨s₃, hs₃, Machine.run_cons.mpr ⟨s₄, hs₄,
      Machine.run_cons.mpr ⟨s₅, hs₅, rfl⟩⟩⟩⟩⟩, h₅⟩

/-- After `2 ^ 32 - 1` synced balances the second deposit carries the id of the first one
and is taken for a repetition, while the third one is executed. -/
theorem not_executed_issueOrder_wrapAround : (∀ e ∈ wrapAround (2 ^ 32 - 1), ¬ cleansHistory e) ∧
    ∃ s, alone.system.run alone.start (wrapAround (2 ^ 32 - 1)) = some s ∧
      ¬ (executedList s 0).filter (· ∈ accepted s 0) <+: monetary (accepted s 0) := by
  refine ⟨not_cleansHistory_of_mem_wrapAround _, ?_⟩
  obtain ⟨s₁, hs₁, h₁⟩ := Alone.first
  obtain ⟨s₂, hs₂, h₂⟩ := h₁.syncedRounds rfl (by omega) (2 ^ 32 - 1) (by omega)
  rw [show 1 + (2 ^ 32 - 1) = 2 ^ 32 by omega, AtomicInteger.after_two_pow] at h₂
  obtain ⟨s₃, hs₃, h₃⟩ := h₂.last
  refine ⟨s₃, Machine.run_append.mpr ⟨s₂, Machine.run_append.mpr ⟨s₁, hs₁, hs₂⟩, hs₃⟩, ?_⟩
  have hexecuted : executedList s₃ 0 = [deposited "Rep1" 0 1, deposited "Rep1" 1 3] :=
    congrArg Client.executedList h₃.reads.replica
  have haccepted : monetary (accepted s₃ 0) =
      [deposited "Rep1" 0 1, deposited "Rep1" 0 2, deposited "Rep1" 1 3] := h₃.reads.monetary
  have hall : ∀ t ∈ executedList s₃ 0, decide (t ∈ accepted s₃ 0) = true := by
    intro t ht
    have hmem : t ∈ monetary (accepted s₃ 0) := by
      rw [haccepted]
      rw [hexecuted] at ht
      revert t
      decide +kernel
    exact decide_eq_true (mem_monetary.mp hmem).1
  rw [List.filter_eq_self.mpr hall, hexecuted, haccepted]
  decide +kernel

end ReplicatedBank
