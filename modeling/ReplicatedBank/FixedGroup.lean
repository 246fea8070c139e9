import ReplicatedBank.Distributed.Fifo
import ReplicatedBank.Process

/-!
# A fixed group over FIFO multicast

The system after start-up: a fixed set of replicas with distinct names, equal balances
and nothing executed or outstanding, whose multicasts are delivered to every member in
each sender's order and in no particular order otherwise, which is what `setFifo` asks
of the transport.

Since identifiers of different replicas differ, a replica finds the messages with a
given id in one sender's stream only, and FIFO delivery fixes which of them comes
first (`eq_of_mem_executedList`).  What the transport leaves open is the relative order
of different senders' transactions, and `sameSequence_iff` says that this is all that
stands between the replicas and agreement.
-/

namespace ReplicatedBank

open Distributed

/-- A group that has finished starting up. -/
structure Group (ι : Type*) where
  /-- The replicas. -/
  node : ι → Process
  /-- Their common balance. -/
  balance : ℚ
  name_injective : Function.Injective fun i ↦ (node i).machine.replicaName
  balance_eq : ∀ i, (node i).machine.replica.balance = balance
  executedList_eq : ∀ i, (node i).machine.replica.executedList = []
  outstanding_eq : ∀ i, (node i).outstanding = []
  outstandingCounter_eq : ∀ i, (node i).machine.replica.outstandingCounter = 0
  accepted_eq : ∀ i, (node i).accepted = []

namespace Group

variable {ι : Type*} [DecidableEq ι] (G : Group ι)

omit [DecidableEq ι] in
/-- The name of a replica. -/
def name (i : ι) : String := (G.node i).machine.replicaName

/-- The group as a machine. -/
def system : Machine (Fifo.State ι Process Packet) (Fifo.Event ι Action) :=
  Fifo.machine (bank fun i ↦ (G.node i).machine.privateGroup)

/-- The group before the first command. -/
def start : Fifo.State ι Process Packet := Fifo.start G.node

end Group

/-- Whether an event is a `cleanHistory` command. -/
def cleansHistory {ι : Type*} : Fifo.Event ι Action → Bool
  | .act _ k => k.isCleanHistory
  | .deliver _ _ => false

section

variable {ι : Type*} (s : Fifo.State ι Process Packet)

/-- The executed transactions of a replica. -/
def executedList (r : ι) : List Transaction := (s.node r).machine.replica.executedList

/-- The balance of a replica. -/
def balance (r : ι) : ℚ := (s.node r).machine.replica.balance

/-- The transactions a replica has accepted from its own command line. -/
def accepted (r : ι) : List Transaction := (s.node r).accepted

/-- The transactions a replica has been delivered, repetitions included. -/
def delivered (r : ι) : List Transaction := transactions (s.history r)

/-- Of two ids, one is delivered as a `DEPOSIT` or `INTEREST` before the other has been;
an id that has not been delivered yet comes last. -/
def Before (ts : List Transaction) (x y : String) : Prop :=
  (ids (monetary ts)).idxOf x < (ids (monetary ts)).idxOf y

/-- Two replicas have been delivered two transactions in opposite orders. -/
def OppositeOrders : Prop :=
  ∃ r r' x y, Before (delivered s r) x y ∧ Before (delivered s r') y x

/-- The replicas go through the same sequence of changes: their lists of executed
transactions are comparable, and those that have delivered the same multicasts have the
same balance. -/
def SameSequence [DecidableEq ι] : Prop :=
  (∀ r r', executedList s r <+: executedList s r' ∨ executedList s r' <+: executedList s r) ∧
  ∀ r r', (∀ i, s.received r i = s.received r' i) → balance s r = balance s r'

end

/-! ## The ledgers of the group -/

section

variable {ι : Type*} [DecidableEq ι] {G : Group ι} {s : Fifo.State ι Process Packet}
variable {es : List (Fifo.Event ι Action)} {r r' i : ι} {a b : Transaction}

/-- The replicas send transactions of their own, and no `UPDATE_BALANCE`. -/
theorem issued_of_mem_sent (hr : G.system.run G.start es = some s) (i : ι) :
    ∀ q ∈ s.sent i, Issued (G.name i) q.transaction ∧ q.transaction.type ≠ .updateBalance := by
  have key := Fifo.group_invariant
    (A := bank fun i ↦ (G.node i).machine.privateGroup) (C := fun _ _ ↦ True)
    (I := fun i p ↦ p.machine.replicaName = G.name i ∧
      ∀ t ∈ p.outstanding, Issued (G.name i) t ∧ t.type ≠ .updateBalance)
    (J := fun i q ↦ Issued (G.name i) q.transaction ∧ q.transaction.type ≠ .updateBalance)
    ?_ ?_ ?_ (Machine.along_true _ _) hr i
  · exact key.2
  · rintro s i k - ⟨hname, hout⟩
    have hname' := (Process.sameSetting_act (s.node i) k).replicaName.trans hname
    rcases Process.act_cases (s.node i) k with ⟨n, hm, -, hs⟩ | ⟨t, ht, hm, -, hs⟩ |
      ⟨input, -, -, hm, -, hs⟩
    · refine ⟨⟨hname', fun t ht ↦ hout t (by simpa [bank, Process.outstanding, hm] using ht)⟩,
        fun q hq ↦ ?_⟩
      simp only [bank, hs, Process.wrap, List.mem_map] at hq
      obtain ⟨t, ht, rfl⟩ := hq
      exact hout t (List.mem_of_mem_take ht)
    · refine ⟨⟨hname', fun u hu ↦ ?_⟩, fun q hq ↦ by simp [bank, hs] at hq⟩
      have hu : u ∈ (s.node i).outstanding ∨ u = t := by
        simpa [bank, Process.outstanding, hm, Client.addOutstandingCollection] using hu
      rcases hu with hu | rfl
      · exact hout u hu
      · exact ⟨⟨_, ht.uniqueId_eq.trans (by rw [ReplicatedStateMachine.nextUniqueId, hname])⟩,
          ht.ne_updateBalance⟩
    · refine ⟨⟨hname', fun t ht ↦ hout t ?_⟩, fun q hq ↦ by simp [bank, hs] at hq⟩
      simpa [bank, Process.outstanding, hm, Client.setExecutedTransactions] using ht
  · rintro r p q ⟨hname, hout⟩
    refine ⟨⟨?_, fun t ht ↦ hout t ?_⟩, fun q' hq' ↦ by simp [bank] at hq'⟩
    · exact Process.receive_replicaName.trans hname
    · exact AdvancedListener.outstandingCollection_subset p.machine q.transaction ht
  · exact fun i ↦ ⟨rfl, by simp [Process.outstanding, show _ = _ from G.outstanding_eq i]⟩

/-- The same of what is delivered. -/
theorem issued_of_mem_delivered (hr : G.system.run G.start es = some s) {q : Packet}
    (hq : (i, q) ∈ s.delivered r) :
    Issued (G.name i) q.transaction ∧ q.transaction.type ≠ .updateBalance :=
  issued_of_mem_sent hr i q ((Fifo.received_isPrefix hr r i).subset (Fifo.mem_received.mpr hq))

/-- The ledger of a replica is what its messages have made of it. -/
theorem ledger_eq_foldl (hk : ∀ e ∈ es, ¬ cleansHistory e)
    (hr : G.system.run G.start es = some s) (r : ι) :
    (s.node r).ledger = (delivered s r).foldl Ledger.deliver (G.node r).ledger := by
  have h := Fifo.observe_eq_foldl (A := bank fun i ↦ (G.node i).machine.privateGroup)
    (C := fun _ e ↦ ¬ cleansHistory e) Process.ledger (fun ℓ q ↦ ℓ.deliver q.transaction)
    (fun s i k h ↦ Process.ledger_act h) (fun p q ↦ Process.ledger_receive)
    (Machine.along_of_forall_mem hk _) hr r
  rw [h, delivered, transactions, List.foldl_map]

theorem executedList_eq_firstCopies (hk : ∀ e ∈ es, ¬ cleansHistory e)
    (hr : G.system.run G.start es = some s) (r : ι) :
    executedList s r = firstCopies Transaction.uniqueId (monetary (delivered s r)) := by
  rw [← Ledger.executed_foldl (ℓ := (G.node r).ledger) (G.executedList_eq r),
    ← ledger_eq_foldl hk hr]
  rfl

theorem balance_eq_effects (hk : ∀ e ∈ es, ¬ cleansHistory e)
    (hr : G.system.run G.start es = some s) (r : ι) :
    balance s r = effects (executedList s r) G.balance := by
  have hno : ∀ t ∈ delivered s r, t.type ≠ .updateBalance := by
    intro t ht
    obtain ⟨q, hq, rfl⟩ := List.mem_map.mp ht
    obtain ⟨i, hi⟩ := Fifo.mem_delivered_history hq
    exact (issued_of_mem_delivered hr hi).2
  have h := Ledger.balance_foldl_of_no_updateBalance (ℓ := (G.node r).ledger)
    (G.executedList_eq r) (delivered s r) hno
  rw [← ledger_eq_foldl hk hr r] at h
  exact h.trans (by rw [← G.balance_eq r]; rfl)

/-! ## One transaction for each id -/

/-- A transaction that a replica has executed is the first one with its id in the stream
of the replica that issued it. -/
theorem exists_find?_sent (hk : ∀ e ∈ es, ¬ cleansHistory e)
    (hr : G.system.run G.start es = some s) (ha : a ∈ executedList s r) :
    ∃ i q, Issued (G.name i) a ∧ q.transaction = a ∧
      (s.sent i).find? (fun q ↦ q.transaction.isMonetary && q.transaction.uniqueId = a.uniqueId) =
        some q := by
  rw [executedList_eq_firstCopies hk hr] at ha
  have hfind := find?_eq_of_mem_firstCopies ha
  rw [find?_monetary, delivered, transactions, List.find?_map, Option.map_eq_some_iff] at hfind
  obtain ⟨q, hq, rfl⟩ := hfind
  obtain ⟨i, hi⟩ := Fifo.mem_delivered_history (List.mem_of_find?_eq_some hq)
  have hissued := (issued_of_mem_delivered hr hi).1
  refine ⟨i, q, hissued, rfl, ?_⟩
  have hfilter := Fifo.filter_history_eq_filter_received (s := s) (r := r) (i := i)
    (p := fun q' ↦ q'.transaction.isMonetary && q'.transaction.uniqueId = q.transaction.uniqueId)
    fun j q' hj hp ↦ by
      simp only [Bool.and_eq_true, decide_eq_true_eq] at hp
      exact G.name_injective ((issued_of_mem_delivered hr hj).1.name_eq hissued hp.2)
  have hreceived : (s.received r i).find? (fun q' ↦
      q'.transaction.isMonetary && q'.transaction.uniqueId = q.transaction.uniqueId) = some q := by
    rw [← List.head?_filter, ← hfilter, List.head?_filter]
    exact hq
  obtain ⟨t, ht⟩ := Fifo.received_isPrefix hr r i
  rw [← ht, List.find?_append, hreceived]
  rfl

/-- Two replicas never execute different transactions under one id. -/
theorem eq_of_mem_executedList (hk : ∀ e ∈ es, ¬ cleansHistory e)
    (hr : G.system.run G.start es = some s) (ha : a ∈ executedList s r)
    (hb : b ∈ executedList s r') (h : a.uniqueId = b.uniqueId) : a = b := by
  obtain ⟨i, q, hia, rfl, hq⟩ := exists_find?_sent hk hr ha
  obtain ⟨j, q', hjb, rfl, hq'⟩ := exists_find?_sent hk hr hb
  obtain rfl : i = j := G.name_injective (hia.name_eq hjb h)
  rw [h, hq'] at hq
  rw [Option.some.inj hq]

/-! ## Agreement -/

theorem nodup_ids_executedList (hk : ∀ e ∈ es, ¬ cleansHistory e)
    (hr : G.system.run G.start es = some s) (r : ι) : (ids (executedList s r)).Nodup := by
  rw [executedList_eq_firstCopies hk hr]
  exact nodup_map_firstCopies _

/-- Two replicas execute comparable sequences exactly if they are not delivered two
transactions in opposite orders. -/
theorem comparable_iff (hk : ∀ e ∈ es, ¬ cleansHistory e)
    (hr : G.system.run G.start es = some s) (r r' : ι) :
    (executedList s r <+: executedList s r' ∨ executedList s r' <+: executedList s r) ↔
      ∀ x y, Before (delivered s r) x y → ¬ Before (delivered s r') y x := by
  have hbefore : ∀ r x y, Before (delivered s r) x y ↔
      (ids (executedList s r)).idxOf x < (ids (executedList s r)).idxOf y := by
    intro r x y
    rw [executedList_eq_firstCopies hk hr]
    exact (idxOf_firstCopies_lt_iff _).symm
  simp only [hbefore]
  rw [← isPrefix_or_isPrefix_iff (nodup_ids_executedList hk hr r)
    (nodup_ids_executedList hk hr r')]
  have hdet : ∀ r r', ids (executedList s r) <+: ids (executedList s r') →
      executedList s r <+: executedList s r' := fun r r' ↦
    isPrefix_of_map_isPrefix fun a ha b hb h ↦ eq_of_mem_executedList hk hr ha hb h
  exact ⟨Or.imp (·.map _) (·.map _), Or.imp (hdet r r') (hdet r' r)⟩

/-- The ids a replica has executed depend only on what it has received of each sender. -/
theorem ids_executedList_subset (hk : ∀ e ∈ es, ¬ cleansHistory e)
    (hr : G.system.run G.start es = some s) (h : ∀ i, s.received r i = s.received r' i) :
    ids (executedList s r) ⊆ ids (executedList s r') := by
  intro x hx
  rw [executedList_eq_firstCopies hk hr] at hx ⊢
  obtain ⟨t, ht, rfl⟩ := List.mem_map.mp (mem_map_firstCopies.mp hx)
  obtain ⟨q, hq, rfl⟩ := List.mem_map.mp (mem_monetary.mp ht).1
  obtain ⟨i, hi⟩ := Fifo.mem_delivered_history hq
  have hi' : q ∈ s.received r' i := h i ▸ Fifo.mem_received.mpr hi
  refine mem_map_firstCopies.mpr
    (List.mem_map_of_mem (mem_monetary.mpr ⟨?_, (mem_monetary.mp ht).2⟩))
  exact List.mem_map_of_mem (List.mem_map_of_mem (Fifo.mem_received.mp hi'))

/-- Comparable sequences of executed transactions with the same ids are equal. -/
theorem executedList_eq_of_isPrefix (hk : ∀ e ∈ es, ¬ cleansHistory e)
    (hr : G.system.run G.start es = some s) (hp : executedList s r <+: executedList s r')
    (h : ids (executedList s r') ⊆ ids (executedList s r)) :
    executedList s r = executedList s r' := by
  obtain ⟨t, ht⟩ := hp
  have hnodup := nodup_ids_executedList hk hr r'
  rw [← ht, ids_append] at hnodup h
  have ht' : t = [] := by
    refine List.eq_nil_iff_forall_not_mem.mpr fun a ha ↦ ?_
    have hmem : a.uniqueId ∈ ids t := List.mem_map_of_mem ha
    exact (List.disjoint_of_nodup_append hnodup) (h (List.mem_append_right _ hmem)) hmem
  rw [← ht, ht', List.append_nil]

theorem balance_eq_of_comparable (hk : ∀ e ∈ es, ¬ cleansHistory e)
    (hr : G.system.run G.start es = some s)
    (hc : executedList s r <+: executedList s r' ∨ executedList s r' <+: executedList s r)
    (h : ∀ i, s.received r i = s.received r' i) : balance s r = balance s r' := by
  have hsub := ids_executedList_subset hk hr h
  have hsub' := ids_executedList_subset hk hr fun i ↦ (h i).symm
  have heq : executedList s r = executedList s r' := hc.elim
    (fun hp ↦ executedList_eq_of_isPrefix hk hr hp hsub')
    (fun hp ↦ (executedList_eq_of_isPrefix hk hr hp hsub).symm)
  rw [balance_eq_effects hk hr, balance_eq_effects hk hr, heq]

/-- **Agreement is order.**  The replicas go through the same sequence of changes as
long as no two of them are delivered two transactions in opposite orders, and not
otherwise. -/
theorem sameSequence_iff (G : Group ι) (hk : ∀ e ∈ es, ¬ cleansHistory e)
    (hr : G.system.run G.start es = some s) : SameSequence s ↔ ¬ OppositeOrders s := by
  constructor
  · rintro h ⟨r, r', x, y, hxy, hyx⟩
    exact (comparable_iff hk hr r r').mp (h.1 r r') x y hxy hyx
  · intro h
    have hc : ∀ r r', executedList s r <+: executedList s r' ∨
        executedList s r' <+: executedList s r := fun r r' ↦
      (comparable_iff hk hr r r').mpr fun x y hxy hyx ↦ h ⟨r, r', x, y, hxy, hyx⟩
    exact ⟨hc, fun r r' ↦ balance_eq_of_comparable hk hr (hc r r')⟩

end

/-! ## Two replicas -/

/-- Two replicas with a balance of 100. -/
def pair : Group (Fin 2) where
  node i := .started (["Rep1", "Rep2"].get i) (["#Rep1", "#Rep2"].get i) 2 100
  balance := 100
  name_injective := by decide
  balance_eq _ := rfl
  executedList_eq _ := rfl
  outstanding_eq _ := rfl
  outstandingCounter_eq _ := rfl
  accepted_eq _ := rfl

/-- Both replicas accept transactions and multicast some of them twice.  The second replica is
behind: it has been delivered two of the three. -/
def orderly : List (Fifo.Event (Fin 2) Action) :=
  [.act 0 (.command "deposit 100"), .act 1 (.command "addInterest 10"), .act 0 (.tick 1),
    .act 1 (.tick 1), .act 0 (.tick 1), .deliver 0 0, .deliver 1 0, .act 1 (.tick 1),
    .deliver 0 1, .deliver 1 0, .deliver 1 1, .deliver 0 0, .act 0 (.command "deposit 50"),
    .act 0 (.tick 1), .deliver 0 1, .deliver 0 0]

theorem sameSequence_iff_orderly : ∃ s, pair.system.run pair.start orderly = some s ∧
    balance s 0 = 270 ∧ balance s 1 = 220 ∧ (SameSequence s ↔ ¬ OppositeOrders s) := by
  have h : (pair.system.run pair.start orderly).any fun s ↦
      balance s 0 = 270 ∧ balance s 1 = 220 := by decide +kernel
  obtain ⟨s, hs, h⟩ := (Option.any_eq_true _ _).mp h
  obtain ⟨h₀, h₁⟩ := of_decide_eq_true h
  exact ⟨s, hs, h₀, h₁, sameSequence_iff pair (by decide +kernel) hs⟩

/-- A deposit at one replica and interest at the other, each delivered at home first. -/
def crossing : List (Fifo.Event (Fin 2) Action) :=
  [.act 0 (.command "deposit 100"), .act 1 (.command "addInterest 10"),
    .act 0 (.tick 1), .act 1 (.tick 1),
    .deliver 0 0, .deliver 1 1, .deliver 0 1, .deliver 1 0]

/-- Both replicas are delivered the same two messages, and end up with 220 and 210. -/
theorem not_sameSequence_crossing : (∀ e ∈ crossing, ¬ cleansHistory e) ∧
    ∃ s, pair.system.run pair.start crossing = some s ∧
      (∀ i, s.received 0 i = s.received 1 i) ∧ balance s 0 = 220 ∧ balance s 1 = 210 ∧
      ¬ SameSequence s := by
  refine ⟨by decide +kernel, ?_⟩
  obtain ⟨s, hs, h⟩ : ∃ s, pair.system.run pair.start crossing = some s ∧
      ((∀ i, s.received 0 i = s.received 1 i) ∧ balance s 0 = 220 ∧ balance s 1 = 210) := by
    have h : (pair.system.run pair.start crossing).any (fun s ↦
        (∀ i, s.received 0 i = s.received 1 i) ∧ balance s 0 = 220 ∧ balance s 1 = 210) := by
      decide +kernel
    simpa [Option.any_eq_true] using h
  refine ⟨s, hs, h.1, h.2.1, h.2.2, fun hsame ↦ ?_⟩
  have := hsame.2 0 1 h.1
  rw [h.2.1, h.2.2] at this
  exact absurd this (by decide +kernel)

end ReplicatedBank
