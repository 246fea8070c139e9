import ReplicatedBank.ChangingGroup

/-!
# The balance at the end

`exit` waits until the replica's own outstanding collection is empty, leaves the group and
prints the balance.  A replica that has left is delivered nothing any more, so what it prints
is what the log up to that point makes of the balance it has started with.

The logs of two replicas that have left are prefixes of one log.  They have executed the same
if neither has missed anything, and nothing in `exit` asks whether the others are still going
to accept something (`finalBalances_iff`).
-/

namespace ReplicatedBank

open Distributed
open Distributed.TotalOrder (Entry Proc State Event WellFormed Holds Joined react)

/-- What `exit` prints and writes at its end. -/
def ReplicatedStateMachine.balanceLines (m : ReplicatedStateMachine) : List Output :=
  ReplicatedStateMachine.report [.text "BALANCE: ", .number m.replica.getQuickBalance] ++
    [AdvancedListener.writeOutput [.text "BALANCE ", .number m.replica.getQuickBalance]]

/-- A fixed set of replicas that have finished starting up, with a common balance. -/
structure Crew (ι : Type*) extends Deployment ι where
  members : List ι
  balance : ℚ

namespace Crew

variable {ι : Type*} [DecidableEq ι] (C : Crew ι)

omit [DecidableEq ι] in
/-- A replica before its first command. -/
def initial (i : ι) : Process :=
  .started (C.replicaName i) (C.privateGroup i) (C.numberOfReplicas i) C.balance

/-- The system as a machine. -/
def machine : Machine (State ι Process Packet) (Event ι Action) :=
  TotalOrder.machine (bank C.privateGroup) C.initial

/-- The replicas before their first commands. -/
def begin : State ι Process Packet := TotalOrder.start C.members C.initial

end Crew

section

variable {ι : Type*} (s : State ι Process Packet)

/-- Nobody joins, crashes or clears the history, and a replica leaves from the end of `exit`
only: its main thread is there and has found the outstanding collection empty. -/
def Orderly (s : State ι Process Packet) : Event ι Action → Prop
  | .act _ k => ¬ k.isCleanHistory
  | .leave i => ∀ p ∈ s.proc i, p.node.machine.main = .exiting ∧ p.node.outstanding = []
  | .order _ | .deliver _ => True
  | .join _ | .disconnect _ => False

instance : DecidablePred (Orderly s)
  | .act _ k => inferInstanceAs (Decidable (¬ (k.isCleanHistory = true)))
  | .leave i => inferInstanceAs (Decidable
      (∀ p ∈ s.proc i, p.node.machine.main = .exiting ∧ p.node.outstanding = []))
  | .order _ | .deliver _ => instDecidableTrue
  | .join _ | .disconnect _ => instDecidableFalse

/-- The replicas that have left have printed the same, and what they have printed is what a
sequence of transactions makes of the common balance that includes every `DEPOSIT` and `INTEREST`
that any replica has accepted. -/
def FinalBalances (balance : ℚ) : Prop :=
  ∀ i, ∀ p ∈ s.proc i, i ∉ s.members →
    (∀ j, ∀ q ∈ s.proc j, j ∉ s.members →
      p.node.machine.balanceLines = q.node.machine.balanceLines) ∧
    p.node.machine.replica.getQuickBalance =
      effects p.node.machine.replica.executedList balance ∧
    ∀ j, ∀ q ∈ s.proc j,
      (monetary q.node.accepted).Subperm p.node.machine.replica.executedList

/-- The replicas that have left were delivered, while they were there, every `DEPOSIT` and
`INTEREST` that any replica has accepted, and these have different ids. -/
def NothingMissed : Prop :=
  ∀ i, ∀ p ∈ s.proc i, i ∉ s.members → ∀ j, ∀ q ∈ s.proc j,
    (ids (monetary q.node.accepted)).Nodup ∧
    ∀ t ∈ monetary q.node.accepted, t ∈ messages (s.past p)

end

section

variable {ι : Type*} [DecidableEq ι] {C : Crew ι} {s s' : State ι Process Packet}
variable {i : ι} {joined : ℕ} {past : List (Entry ι Packet)} {p : Process}
variable {sent : List (ℕ × Packet)}

/-- What holds of a replica and of what it sends. -/
structure CrewInv (C : Crew ι) (i : ι) (joined : ℕ) (past : List (Entry ι Packet)) (p : Process)
    (sent : List (ℕ × Packet)) : Prop where
  replicaName : p.machine.replicaName = C.replicaName i
  numbered : p.Numbered
  ledger : p.ledger = (messages (past.drop joined)).foldl Ledger.deliver ⟨C.balance, [], true⟩
  outstanding : p.outstanding ⊆ p.accepted
  sent : ∀ w q, (w, q) ∈ sent → q.transaction ∈ p.accepted

namespace CrewInv

omit [DecidableEq ι] in
theorem initial (C : Crew ι) (i : ι) (past : List (Entry ι Packet)) :
    CrewInv C i past.length past (C.initial i) [] where
  replicaName := rfl
  numbered := ⟨rfl, rfl⟩
  ledger := by
    rw [List.drop_length]
    rfl
  outstanding := List.nil_subset _
  sent := by simp

omit [DecidableEq ι] in
/-- The executed transactions are the first copies of what has been delivered. -/
theorem executed_eq (h : CrewInv C i joined past p sent) :
    p.machine.replica.executedList =
      firstCopies Transaction.uniqueId (monetary (messages (past.drop joined))) := by
  have hledger := congrArg Ledger.executed h.ledger
  exact hledger.trans (Ledger.executed_foldl rfl _)

omit [DecidableEq ι] in
/-- The balance is what they make of the common balance. -/
theorem balance_eq (h : CrewInv C i joined past p sent) :
    p.machine.replica.balance = effects p.machine.replica.executedList C.balance := by
  obtain ⟨-, new, hx, hb⟩ := Ledger.foldl_of_initialized
    (show (⟨C.balance, [], true⟩ : Ledger).initialized from rfl) (messages (past.drop joined))
  rw [← h.ledger] at hx hb
  rw [List.nil_append] at hx
  exact hb.trans (by rw [← hx]; rfl)

omit [DecidableEq ι] in
/-- Local actions send outstanding transactions, and what they accept is outstanding. -/
theorem act (h : CrewInv C i joined past p sent) {k : Action} (hk : ¬ k.isCleanHistory) (w : ℕ) :
    CrewInv C i joined past (p.act k).1 (sent ++ TotalOrder.stamped w (p.act k).2) := by
  refine ⟨Process.act_replicaName.trans h.replicaName, h.numbered.act k,
    (Process.ledger_act hk).trans h.ledger, Process.outstanding_act_subset k h.outstanding,
    fun w' q hq ↦ ?_⟩
  rw [Process.accepted_act]
  rcases List.mem_append.mp hq with hq | hq
  · exact List.mem_append_left _ (h.sent w' q hq)
  · obtain ⟨-, hq⟩ := TotalOrder.mem_stamped.mp hq
    exact List.mem_append_left _ (Process.mem_accepted_of_mem_act h.outstanding hq)

omit [DecidableEq ι] in
/-- Deliveries: messages and departures. -/
theorem react (h : CrewInv C i joined past p sent) (hle : joined ≤ past.length)
    {x : Entry ι Packet} (hx : ∀ v ∈ x.view?, v.cause ≠ .join) (w : ℕ) :
    CrewInv C i joined (past ++ [x]) (TotalOrder.react (bank C.privateGroup) p x).1
      (sent ++ TotalOrder.stamped w (TotalOrder.react (bank C.privateGroup) p x).2) := by
  have hledger : (TotalOrder.react (bank C.privateGroup) p x).1.ledger =
      (messages ((past ++ [x]).drop joined)).foldl Ledger.deliver ⟨C.balance, [], true⟩ := by
    rw [ledger_react, h.ledger, List.drop_append_of_le_length hle, messages_append,
      List.foldl_append]
  cases x with
  | message k w' q =>
      refine ⟨Process.receive_replicaName.trans h.replicaName, h.numbered.receive, hledger, ?_, ?_⟩
      · exact List.Subset.trans (AdvancedListener.outstandingCollection_subset _ _) h.outstanding
      · simpa [TotalOrder.react, bank, TotalOrder.stamped] using h.sent
  | view v =>
      have hnone : (p.view C.privateGroup v).2 = [] := by
        rw [Process.view_sent, AdvancedListener.membershipMessageReceived_sent, if_neg]
        · rfl
        · exact fun hjoin ↦ hx v rfl (by simpa [Process.membershipInfo] using hjoin.1)
      refine ⟨(Process.view_replicaName _ _ _).trans h.replicaName, h.numbered.view _ v, hledger,
        ?_, ?_⟩
      · show (p.view C.privateGroup v).1.machine.replica.outstandingCollection ⊆ _
        rw [Process.view_replica]
        exact h.outstanding
      · show ∀ w' q, (w', q) ∈ sent ++ TotalOrder.stamped w (p.view C.privateGroup v).2 →
          q.transaction ∈ p.accepted
        rw [hnone]
        simpa [TotalOrder.stamped] using h.sent

end CrewInv

/-- A crew at work. -/
structure Crew.Inv (C : Crew ι) (s : State ι Process Packet) : Prop where
  holds : WellFormed s ∧ Holds (CrewInv C) s
  joined : Joined C.members s
  view : ∀ x ∈ s.log, ∀ v ∈ x.view?, v.cause ≠ .join

theorem Crew.inv_begin (C : Crew ι) : C.Inv C.begin where
  holds := TotalOrder.holds_start (CrewInv.initial C) C.members
  joined := .start C.members C.initial
  view := by simp [Crew.begin, TotalOrder.start]

/-- Every orderly step keeps the invariant. -/
theorem Crew.Inv.step {e : Event ι Action} (h : C.Inv s) (he : Orderly s e)
    (hs : C.machine.step s e = some s') : C.Inv s' := by
  refine ⟨?_, h.joined.step hs, ?_⟩
  · refine TotalOrder.holds_step (C := fun s e ↦ Orderly s e ∧
      ∀ x ∈ s.log, ∀ v ∈ x.view?, v.cause ≠ .join) (CrewInv.initial C) ?_ ?_ h.holds
      ⟨he, h.view⟩ hs
    · intro s i k p hc _ hI hp
      exact (hI i p (TotalOrder.proc_of_member? hp)).act hc.1 _
    · intro s i p x hc hwf hI hp hx
      have hproc := TotalOrder.proc_of_member? hp
      exact (hI i p hproc).react (hwf.joined_le_length_past hproc)
        (hc.2 x (List.mem_of_getElem? hx)) _
  · rcases TotalOrder.step_cases hs with ⟨i, k, p, rfl, -, hp, rfl⟩ | ⟨i, rfl, hi, rfl⟩ |
      ⟨cause, i, he', rfl⟩ | ⟨i, p, w, m, rest, rfl, hp, ho, rfl⟩ | ⟨i, p, x, rfl, -, hp, hx, rfl⟩
    · exact h.view
    · exact he.elim
    · rcases he' with rfl | rfl
      · rw [TotalOrder.eq_departed_of_leave hs]
        exact List.forall_mem_append.mpr ⟨h.view, by simp [Entry.view?]⟩
      · exact he.elim
    · exact List.forall_mem_append.mpr ⟨h.view, by simp [Entry.view?]⟩
    · exact h.view

namespace Crew.Inv

variable {j : ι} {p q : Proc Process Packet} {t : Transaction}

/-- The log of every replica begins at the beginning. -/
theorem executedList_eq (h : C.Inv s) (hp : s.proc i = some p) :
    p.node.machine.replica.executedList =
      firstCopies Transaction.uniqueId (monetary (messages (s.past p))) := by
  have hzero : p.joined = 0 := by
    by_cases hi : i ∈ C.members
    · exact h.joined.founder hp hi
    · obtain ⟨ms, hms⟩ := h.joined.joiner hp hi
      exact absurd rfl (h.view _ (List.mem_of_getElem? hms) _ rfl)
  have hexecuted := (h.holds.2 i p hp).executed_eq
  rwa [hzero, List.drop_zero] at hexecuted

theorem mem_executedList (h : C.Inv s) (hp : s.proc i = some p)
    (ht : t ∈ p.node.machine.replica.executedList) : t ∈ monetary (messages (s.past p)) := by
  rw [h.executedList_eq hp] at ht
  exact mem_of_mem_firstCopies ht

/-- A replica whose log ends earlier has executed the first part of what another one has. -/
theorem executed_isPrefix (h : C.Inv s) (hp : s.proc i = some p) (hq : s.proc j = some q)
    (hpos : p.position ≤ q.position) :
    p.node.machine.replica.executedList <+: q.node.machine.replica.executedList := by
  rw [h.executedList_eq hp, h.executedList_eq hq]
  refine firstCopies_isPrefix (List.IsPrefix.filter _ ?_)
  obtain ⟨rest, hrest⟩ : s.past p <+: s.past q := List.take_prefix_take_left hpos
  rw [← hrest, messages_append]
  exact List.prefix_append _ _

/-- What has been delivered has been accepted by somebody. -/
theorem exists_accepted (h : C.Inv s) (ht : t ∈ messages (s.past p)) :
    ∃ k r, s.proc k = some r ∧ t ∈ r.node.accepted := by
  obtain ⟨m, hm, rfl⟩ := List.mem_map.mp ht
  obtain ⟨x, hx, hxm⟩ := List.mem_filterMap.mp hm
  obtain ⟨u, hu⟩ := List.getElem?_of_mem (List.mem_of_mem_take hx)
  cases x with
  | view v => cases hxm
  | message k w m' =>
      obtain rfl : m' = m := Option.some.inj hxm
      obtain ⟨-, r, hr, -⟩ := h.holds.1.stamp_le hu
      exact ⟨k, r, hr, (h.holds.2 k r hr).sent w m' (TotalOrder.mem_sentBy_of_getElem? hu)⟩

/-- If the first of them has missed nothing, the two have executed the same. -/
theorem executedList_eq_of_le (h : C.Inv s) (hp : s.proc i = some p) (hq : s.proc j = some q)
    (hpos : p.position ≤ q.position)
    (hall : ∀ k r, s.proc k = some r → ∀ t ∈ monetary r.node.accepted, t ∈ messages (s.past p)) :
    p.node.machine.replica.executedList = q.node.machine.replica.executedList := by
  obtain ⟨rest, hrest⟩ := h.executed_isPrefix hp hq hpos
  rcases List.eq_nil_or_concat rest with rfl | ⟨rest, t, rfl⟩
  · rw [← hrest, List.append_nil]
  -- a further transaction has been accepted, so it has been delivered to both
  have htq : t ∈ q.node.machine.replica.executedList := by simp [← hrest]
  obtain ⟨htm, hm⟩ := mem_monetary.mp (h.mem_executedList hq htq)
  obtain ⟨k, r, hr, hk⟩ := h.exists_accepted htm
  have htp : t.uniqueId ∈ ids p.node.machine.replica.executedList := by
    rw [h.executedList_eq hp, ids, mem_map_firstCopies]
    exact List.mem_map_of_mem (mem_monetary.mpr
      ⟨hall k r hr t (mem_monetary.mpr ⟨hk, hm⟩), hm⟩)
  have hnodup : (ids q.node.machine.replica.executedList).Nodup := by
    rw [h.executedList_eq hq]
    exact nodup_map_firstCopies _
  rw [← hrest, ids_append] at hnodup
  exact absurd rfl ((List.nodup_append.mp hnodup).2.2 _ htp t.uniqueId (by simp))

/-- A replica that has missed nothing has executed whatever another one has accepted. -/
theorem mem_executedList_of_accepted (h : C.Inv s) (hp : s.proc i = some p)
    (hq : s.proc j = some q) (hnodup : (ids (monetary q.node.accepted)).Nodup)
    (ht : t ∈ monetary q.node.accepted) (htp : t ∈ messages (s.past p)) :
    t ∈ p.node.machine.replica.executedList := by
  obtain ⟨hacc, hm⟩ := mem_monetary.mp ht
  have hid : t.uniqueId ∈ ids p.node.machine.replica.executedList := by
    rw [h.executedList_eq hp, ids, mem_map_firstCopies]
    exact List.mem_map_of_mem (mem_monetary.mpr ⟨htp, hm⟩)
  obtain ⟨t', ht', hid⟩ := List.mem_map.mp hid
  obtain ⟨htm', hm'⟩ := mem_monetary.mp (h.mem_executedList hp ht')
  obtain ⟨k, r, hr, hk⟩ := h.exists_accepted htm'
  -- the id tells who has accepted it
  have hcq := h.holds.2 j q hq
  have hcr := h.holds.2 k r hr
  have hname := (hcr.numbered.issued hk).name_eq (hcq.numbered.issued hacc) hid
  rw [hcr.replicaName, hcq.replicaName] at hname
  obtain rfl := C.replicaName_injective hname
  obtain rfl : r = q := Option.some.inj (hr.symm.trans hq)
  exact List.inj_on_of_nodup_map hnodup (mem_monetary.mpr ⟨hk, hm'⟩) ht hid ▸ ht'

end Crew.Inv

/-- **Final balances.**  In every orderly run, and in particular when all replicas have left,
the balances printed agree and come from transactions that include everything that has been
accepted if and only if no replica has left before it was delivered all of it, and no id has been
used twice. -/
theorem finalBalances_iff {es : List (Event ι Action)} (he : C.machine.Along Orderly C.begin es)
    (hr : C.machine.run C.begin es = some s) : FinalBalances s C.balance ↔ NothingMissed s := by
  have h : C.Inv s := Machine.run_invariant (fun _ _ _ h hc hs ↦ h.step hc hs) C.inv_begin he hr
  constructor
  · intro hf i p hp hi j q hq
    have hsub := (hf i p hp hi).2.2 j q hq
    constructor
    · have hnodup : (ids p.node.machine.replica.executedList).Nodup := by
        rw [h.executedList_eq hp]
        exact nodup_map_firstCopies _
      obtain ⟨l, hperm, hl⟩ := hsub
      exact (hperm.map _).nodup_iff.mp (hnodup.sublist (hl.map _))
    · exact fun t ht ↦ (mem_monetary.mp (h.mem_executedList hp (hsub.subset ht))).1
  · intro hn i p hp hi
    refine ⟨fun j q hq hj ↦ ?_, (h.holds.2 i p hp).balance_eq, fun j q hq ↦ ?_⟩
    · have hexecuted : p.node.machine.replica.executedList =
          q.node.machine.replica.executedList := by
        rcases Nat.le_total p.position q.position with hpos | hpos
        · exact h.executedList_eq_of_le hp hq hpos fun k r hr ↦ (hn i p hp hi k r hr).2
        · exact (h.executedList_eq_of_le hq hp hpos fun k r hr ↦ (hn j q hq hj k r hr).2).symm
      have hbalance : p.node.machine.replica.balance = q.node.machine.replica.balance := by
        rw [(h.holds.2 i p hp).balance_eq, (h.holds.2 j q hq).balance_eq, hexecuted]
      rw [ReplicatedStateMachine.balanceLines, ReplicatedStateMachine.balanceLines,
        Client.getQuickBalance, Client.getQuickBalance, hbalance]
    · obtain ⟨hnodup, hall⟩ := hn i p hp hi j q hq
      exact List.subperm_of_subset (List.Nodup.of_map _ hnodup) fun t ht ↦
        h.mem_executedList_of_accepted hp hq hnodup ht (hall t ht)

end

/-! ## Two replicas that go -/

/-- Two replicas with nothing on the account. -/
def couple : Crew (Fin 2) where
  toDeployment := .numbered fun _ ↦ 2
  members := [0, 1]
  balance := 0

/-- The second replica accepts a deposit, which is ordered. -/
def deposits : List (Event (Fin 2) Action) :=
  [.act 1 (.command "deposit 100"), .act 1 (.tick 1), .order 1]

/-- A replica reads its `exit` and leaves. -/
def exits (i : Fin 2) : List (Event (Fin 2) Action) := [.act i (.command "exit"), .leave i]

/-- Both have seen the deposit when they leave. -/
theorem finalBalances_iff_seen : ∃ s, couple.machine.run couple.begin
    (deposits ++ [.deliver 0, .deliver 1] ++ exits 0 ++ exits 1) = some s ∧ s.members = [] ∧
      FinalBalances s 0 := by
  have h : (couple.machine.run couple.begin
      (deposits ++ [.deliver 0, .deliver 1] ++ exits 0 ++ exits 1)).any fun s ↦ s.members = [] ∧
      (∀ i, ∀ p ∈ s.proc i, i ∉ s.members → ∀ j, ∀ q ∈ s.proc j,
        (ids (monetary q.node.accepted)).Nodup ∧
        ∀ t ∈ monetary q.node.accepted, t ∈ messages (s.past p)) := by decide +kernel
  obtain ⟨s, hs, h⟩ := (Option.any_eq_true _ _).mp h
  obtain ⟨hm, hn⟩ := of_decide_eq_true h
  exact ⟨s, hs, hm, (finalBalances_iff (by decide +kernel) hs).mpr hn⟩

/-- The first replica has nothing else to do and leaves at once: it prints 0, and the second
one 100. -/
theorem not_finalBalances_early : couple.machine.Along Orderly couple.begin
      (exits 0 ++ deposits ++ [.deliver 1, .deliver 1] ++ exits 1) ∧
    ∃ s, couple.machine.run couple.begin
      (exits 0 ++ deposits ++ [.deliver 1, .deliver 1] ++ exits 1) = some s ∧ s.members = [] ∧
      (∃ p, s.proc 0 = some p ∧ p.node.machine.replica.balance = 0) ∧
      (∃ p, s.proc 1 = some p ∧ p.node.machine.replica.balance = 100) ∧ ¬ FinalBalances s 0 := by
  refine ⟨by decide +kernel, ?_⟩
  have h : (couple.machine.run couple.begin
      (exits 0 ++ deposits ++ [.deliver 1, .deliver 1] ++ exits 1)).any fun s ↦ s.members = [] ∧
      ((s.proc 0).any fun p ↦ (s.proc 1).any fun q ↦ p.node.machine.replica.balance = 0 ∧
        q.node.machine.replica.balance = 100 ∧
        p.node.machine.balanceLines ≠ q.node.machine.balanceLines) := by decide +kernel
  obtain ⟨s, hs, h⟩ := (Option.any_eq_true _ _).mp h
  obtain ⟨hm, h⟩ := of_decide_eq_true h
  obtain ⟨p, hp, h⟩ := (Option.any_eq_true _ _).mp h
  obtain ⟨q, hq, h⟩ := (Option.any_eq_true _ _).mp h
  obtain ⟨hp₀, hq₀, hne⟩ := of_decide_eq_true h
  refine ⟨s, hs, hm, ⟨p, hp, hp₀⟩, ⟨q, hq, hq₀⟩, fun hf ↦ hne ?_⟩
  exact (hf 0 p hp (by simp [hm])).1 1 q hq (by simp [hm])

end ReplicatedBank
