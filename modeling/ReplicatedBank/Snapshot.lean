import ReplicatedBank.ChangingGroup

/-!
# Balances taken while transactions are in flight

A member reads its balance when it handles a joining and the new process installs it when
it is delivered, which is later; and the new process does not know which transactions are
in the balance.  The group's balance at a point of the log is what the first copies of the
transactions so far make of 0 (`groupBalance`).  Three conditions on deliveries, each of
which closes one of the gaps, keep every initialized replica at the group's balance
(`groupBalance_of_initialized`), so that initialized replicas that have got equally far
agree (`balances_agree`).
-/

namespace ReplicatedBank

open Distributed
open Distributed.TotalOrder (Entry Proc State Event WellFormed Holds react)

/-- The balance of the group after some entries of the log. -/
def groupBalance {ι : Type*} (entries : List (Entry ι Packet)) : ℚ :=
  effects (firstCopies Transaction.uniqueId (monetary (messages entries))) 0

section

variable {ι : Type*} {xs ys : List (Entry ι Packet)} {t : Transaction}

/-- Entries without a new transaction leave the group's balance alone. -/
theorem groupBalance_append (h : ∀ t ∈ monetary (messages ys),
    t.uniqueId ∈ ids (monetary (messages xs))) : groupBalance (xs ++ ys) = groupBalance xs := by
  rw [groupBalance, messages_append, monetary_append, firstCopies_append_of_subset h, groupBalance]

/-- A new transaction changes it by its effect. -/
theorem groupBalance_append_of_notMem (h : messages ys = [t]) (hm : t.isMonetary)
    (ht : t.uniqueId ∉ ids (monetary (messages xs))) :
    groupBalance (xs ++ ys) = t.effect (groupBalance xs) := by
  rw [groupBalance, messages_append, monetary_append, h, monetary_singleton_of_isMonetary hm,
    firstCopies_concat_of_notMem ht, effects_concat, groupBalance]

end

section

variable {ι : Type*} [DecidableEq ι] {D : Deployment ι} {s s' : State ι Process Packet}
variable {es : List (Event ι Action)} {i : ι} {joined : ℕ} {past : List (Entry ι Packet)}
variable {p : Process} {sent : List (ℕ × Packet)} {q : Packet}

/-- The conditions under which a delivery keeps initialized replicas at the group's balance. -/
structure Faithful (s : State ι Process Packet) (x : Incoming ι) : Prop where
  /-- Nothing new is ordered between the point at which an installed balance was read and
  its installation. -/
  current : x.proc.node.ledger.Installs x.packet.transaction →
    ∀ t ∈ monetary (messages ((s.past x.proc).drop x.stamp)),
      t.uniqueId ∈ ids (monetary (messages (s.log.take x.stamp)))
  /-- An installed balance comes from a process that had installed one itself, or that has
  been there since before the first transaction. -/
  source : x.proc.node.ledger.Installs x.packet.transaction →
    x.packet.senderInitialized ∨
      ∀ k ∈ s.proc x.sender, monetary (messages (s.log.take k.joined)) = []
  /-- What an initialized replica executes has not been ordered before. -/
  fresh : x.proc.node.ledger.initialized → x.proc.node.ledger.Executes x.packet.transaction →
    x.packet.transaction.uniqueId ∉ ids (monetary (messages (s.past x.proc)))

instance (s : State ι Process Packet) (x : Incoming ι) : Decidable (Faithful s x) :=
  decidable_of_iff (_ ∧ _ ∧ _) ⟨fun h ↦ ⟨h.1, h.2.1, h.2.2⟩, fun h ↦ ⟨h.1, h.2, h.3⟩⟩

/-- What holds of a process and of the balances it sends. -/
structure SnapshotInv (i : ι) (joined : ℕ) (past : List (Entry ι Packet)) (p : Process)
    (sent : List (ℕ × Packet)) : Prop where
  ledger : LedgerInv i joined past p sent
  outstanding : ∀ t ∈ p.outstanding, t.type ≠ .updateBalance
  balance : p.ledger.initialized → p.ledger.balance = groupBalance past
  sent : ∀ w q, (w, q) ∈ sent → q.transaction.type = .updateBalance →
    q.senderInitialized ∨ monetary (messages (past.take joined)) = [] →
    q.transaction.balance = groupBalance (past.take w)

omit [DecidableEq ι] in
/-- The founder, or whoever has seen all transactions, has the group's balance too. -/
theorem LedgerInv.balance_eq (h : LedgerInv i joined past p sent)
    (hinit : p.ledger.initialized = false) (hnone : monetary (messages (past.take joined)) = []) :
    p.ledger.balance = groupBalance past := by
  have hledger : p.ledger = _ := h
  have hinstalled : installed (messages (past.drop joined)) = none := by
    have := Ledger.initialized_foldl (messages (past.drop joined))
    rw [← hledger, hinit] at this
    simpa using this.symm
  have hsplit : monetary (messages past) = monetary (messages (past.drop joined)) := by
    conv_lhs => rw [← List.take_append_drop joined past]
    rw [messages_append, monetary_append, hnone, List.nil_append]
  rw [hledger, Ledger.balance_foldl_of_installed_eq_none _ hinstalled, Ledger.executed_foldl rfl,
    groupBalance, hsplit]

omit [DecidableEq ι] in
/-- Everything executed is monetary. -/
theorem LedgerInv.isMonetary (h : LedgerInv i joined past p sent) {t : Transaction}
    (ht : t ∈ p.ledger.executed) : t.isMonetary := by
  have hledger : p.ledger = _ := h
  rw [hledger, Ledger.executed_foldl rfl] at ht
  exact (mem_monetary.mp (mem_of_mem_firstCopies ht)).2

omit [DecidableEq ι] in
/-- Everything executed has been delivered, and so is in the log. -/
theorem LedgerInv.mem_ids (h : LedgerInv i joined past p sent) {a : String}
    (ha : a ∈ ids p.ledger.executed) : a ∈ ids (monetary (messages past)) := by
  have hledger : p.ledger = _ := h
  rw [hledger, Ledger.mem_ids_executed_foldl rfl] at ha
  rw [← List.take_append_drop joined past, messages_append, monetary_append, ids_append]
  exact List.mem_append_right _ ha

omit [DecidableEq ι] in
theorem snapshotInv_fresh (D : Deployment ι) (i : ι) (past : List (Entry ι Packet)) :
    SnapshotInv i past.length past (D.fresh i) [] where
  ledger := by simp [LedgerInv, Deployment.fresh, Process.ledger_new]
  outstanding := by simp [Deployment.fresh, Process.new, Process.outstanding,
    ReplicatedStateMachine.new]
  balance h := by simp [Deployment.fresh, Process.ledger_new, Ledger.empty] at h
  sent := by simp

namespace SnapshotInv

omit [DecidableEq ι] in
/-- Local actions send nothing but outstanding transactions. -/
theorem act (h : SnapshotInv i joined past p sent) {k : Action} (hk : ¬ k.isCleanHistory) (w : ℕ) :
    SnapshotInv i joined past (p.act k).1 (sent ++ TotalOrder.stamped w (p.act k).2) := by
  have hledger := Process.ledger_act (p := p) hk
  refine ⟨hledger.trans h.ledger, ?_, by rw [hledger]; exact h.balance, ?_⟩
  · rcases Process.act_cases p k with ⟨n, hm, -⟩ | ⟨t, ht, hm, -⟩ | ⟨input, rfl, hc, -⟩
    · rw [Process.outstanding, hm]
      exact h.outstanding
    · rw [Process.outstanding, hm]
      refine List.forall_mem_append.mpr ⟨h.outstanding, ?_⟩
      rw [List.forall_mem_singleton]
      exact ht.ne_updateBalance
    · exact absurd hc hk
  · intro w' q hq hty
    rcases List.mem_append.mp hq with hq | hq
    · exact h.sent w' q hq hty
    · obtain ⟨-, hq⟩ := TotalOrder.mem_stamped.mp hq
      obtain ⟨t, ht, rfl⟩ := List.mem_map.mp ((p.act_isPrefix k).subset hq)
      exact absurd hty (h.outstanding t ht)

omit [DecidableEq ι] in
/-- A membership makes a process send its balance, which is that of the group. -/
theorem view (h : SnapshotInv i joined past p sent) (hle : joined ≤ past.length)
    (hsent : ∀ w q, (w, q) ∈ sent → w ≤ past.length) (privateGroup : ι → String) (v : View ι) :
    SnapshotInv i joined (past ++ [.view v]) (p.view privateGroup v).1
      (sent ++ TotalOrder.stamped past.length (p.view privateGroup v).2) := by
  have hledger := Process.ledger_view privateGroup p v
  have hgroup : groupBalance (past ++ [.view v]) = groupBalance past :=
    groupBalance_append (by simp)
  refine ⟨h.ledger.react hle privateGroup (.view v), ?_, ?_, ?_⟩
  · rw [Process.outstanding, Process.view_replica]
    exact h.outstanding
  · rw [hledger, hgroup]
    exact h.balance
  · intro w q hq hty hsource
    rw [List.take_append_of_le_length hle] at hsource
    rcases List.mem_append.mp hq with hq | hq
    · rw [List.take_append_of_le_length (hsent w q hq)]
      exact h.sent w q hq hty hsource
    · obtain ⟨rfl, hq'⟩ := TotalOrder.mem_stamped.mp hq
      rw [Process.view_sent, Process.wrap, List.mem_map] at hq'
      obtain ⟨t, ht, rfl⟩ := hq'
      rw [List.take_left]
      rw [AdvancedListener.membershipMessageReceived_sent] at ht
      split at ht
      · rcases List.mem_cons.mp ht with rfl | ht
        · show p.ledger.balance = _
          by_cases hinit : p.ledger.initialized
          · exact h.balance hinit
          · exact h.ledger.balance_eq (by simpa using hinit)
              (hsource.resolve_left hinit)
        · have hm : t.isMonetary := by
            split at ht
            · exact h.ledger.isMonetary ht
            · cases ht
          exact absurd hty (Transaction.ne_updateBalance hm)
      · cases ht

omit [DecidableEq ι] in
/-- A message whose balance, if it is installed, is the group's, and which is new to the
group if an initialized process executes it. -/
theorem receive (h : SnapshotInv i joined past p sent) (hle : joined ≤ past.length)
    (hsent : ∀ w q, (w, q) ∈ sent → w ≤ past.length) {k : ι} {w : ℕ}
    (hinst : p.ledger.Installs q.transaction → q.transaction.balance = groupBalance past)
    (hexec : p.ledger.initialized → p.ledger.Executes q.transaction →
      q.transaction.uniqueId ∉ ids (monetary (messages past))) :
    SnapshotInv i joined (past ++ [.message k w q]) (p.receive q) sent where
  ledger := h.ledger.react hle (fun _ ↦ "") (.message k w q)
  outstanding t ht := h.outstanding t
    (AdvancedListener.outstandingCollection_subset p.machine q.transaction ht)
  balance := by
    have hknown : (q.transaction.isMonetary →
          q.transaction.uniqueId ∈ ids (monetary (messages past))) →
        groupBalance (past ++ [.message k w q]) = groupBalance past := by
      intro hmem
      refine groupBalance_append fun t ht ↦ ?_
      rw [messages_message, mem_monetary, List.mem_singleton] at ht
      obtain ⟨rfl, hm⟩ := ht
      exact hmem hm
    rw [Process.ledger_receive]
    rcases p.ledger.deliver_cases q.transaction with ⟨hx, hd⟩ | ⟨hi, hd⟩ | ⟨hx, -, hd⟩
    · rw [hd]
      intro hinit
      rw [groupBalance_append_of_notMem (messages_message k w q) hx.isMonetary (hexec hinit hx)]
      exact congrArg q.transaction.effect (h.balance hinit)
    · rw [hd, hknown fun hm ↦ absurd hm hi.not_isMonetary]
      exact fun _ ↦ hinst hi
    · rw [hd, hknown fun hm ↦ h.ledger.mem_ids (by_contra fun hf ↦ hx ⟨hm, hf⟩)]
      exact h.balance
  sent w' q' hq hty hsource := by
    rw [List.take_append_of_le_length hle] at hsource
    rw [List.take_append_of_le_length (hsent w' q' hq)]
    exact h.sent w' q' hq hty hsource

end SnapshotInv

/-- The invariant along faithful deliveries. -/
theorem snapshotInv_step {e : Event ι Action} (h : WellFormed s ∧ Holds SnapshotInv s)
    (he : ¬ Clears e ∧ OnDelivery Faithful s e) (hs : D.system.step s e = some s') :
    WellFormed s' ∧ Holds SnapshotInv s' := by
  refine TotalOrder.holds_step (C := fun s e ↦ ¬ Clears e ∧ OnDelivery Faithful s e)
    (snapshotInv_fresh D) ?_ ?_ h he hs
  · rintro s i k p ⟨hk, -⟩ _ hI hp
    exact (hI i p (TotalOrder.proc_of_member? hp)).act hk p.position
  · rintro s i p x ⟨-, hf⟩ hwf hI hp hx
    have hproc := TotalOrder.proc_of_member? hp
    have hle := hwf.joined_le_length_past hproc
    have hpast := hwf.length_past hproc
    have hsent : ∀ w q, (w, q) ∈ s.sentBy i → w ≤ (s.past p).length := fun w q hq ↦
      hpast ▸ (hwf.stamp_le_of_mem_sentBy hproc hq).2
    cases x with
    | view v => exact hpast ▸ (hI i p hproc).view hle hsent D.privateGroup v
    | message k w q =>
        obtain ⟨hcurrent, hsource, hfresh⟩ : Faithful s ⟨p, k, w, q⟩ :=
          OnDelivery.of_message hf hp hx
        show SnapshotInv _ _ _ (p.node.receive q) (s.sentBy i ++ [])
        rw [List.append_nil]
        refine (hI i p hproc).receive hle hsent (fun hinst ↦ ?_) hfresh
        -- what the sender knew, and that nothing has been added since
        obtain ⟨hwp, pk, hpk, hjw, hwk⟩ := hwf.stamp_le hx
        have hpastk : (s.past pk).take w = s.log.take w := by
          rw [State.past, List.take_take, Nat.min_eq_left hwk]
        have hjoined : (s.past pk).take pk.joined = s.log.take pk.joined := by
          rw [State.past, List.take_take, Nat.min_eq_left (Nat.le_trans hjw hwk)]
        have hbalance := (hI k pk hpk).sent w q (TotalOrder.mem_sentBy_of_getElem? hx) hinst.type_eq
          ((hsource hinst).imp_right fun hnone ↦ by rw [hjoined]; exact hnone pk hpk)
        rw [hbalance, hpastk]
        have hsplit : s.past p = s.log.take w ++ (s.past p).drop w := by
          conv_lhs => rw [← List.take_append_drop w (s.past p)]
          rw [State.past, List.take_take, Nat.min_eq_left hwp]
        rw [hsplit]
        exact (groupBalance_append (hcurrent hinst)).symm

/-- **The balance of an initialized replica** is that of the group. -/
theorem groupBalance_of_initialized (h : Holds SnapshotInv s) {p : Proc Process Packet}
    (hp : s.proc i = some p) (hinit : p.node.ledger.initialized) :
    p.node.machine.replica.balance = groupBalance (s.past p) := (h i p hp).balance hinit

/-- Initialized replicas that have got equally far have the same balance. -/
def Agree (s : State ι Process Packet) : Prop :=
  ∀ i j p p', s.proc i = some p → s.proc j = some p' →
    p.node.machine.alreadyInitializedBalance → p'.node.machine.alreadyInitializedBalance →
    p.position = p'.position → p.node.machine.replica.balance = p'.node.machine.replica.balance

/-- **Joining under load.**  In a run without `cleanHistory` all of whose deliveries are
faithful, initialized replicas always agree. -/
theorem balances_agree (D : Deployment ι) (hk : ∀ e ∈ es, ¬ Clears e)
    (hf : D.system.Along (OnDelivery Faithful) D.start es) : D.system.Always Agree D.start es := by
  have hstart : WellFormed D.start ∧ Holds SnapshotInv D.start :=
    TotalOrder.holds_start (snapshotInv_fresh D) []
  have halong := Machine.along_and.mpr ⟨Machine.along_of_forall_mem (M := D.system) hk D.start, hf⟩
  refine (Machine.always_of_invariant (fun s e s' h hc hs ↦ snapshotInv_step h hc hs) hstart
    halong).mono fun s h i j p p' hp hp' hinit hinit' hpos ↦ ?_
  rw [groupBalance_of_initialized h.2 hp hinit, groupBalance_of_initialized h.2 hp' hinit',
    State.past, State.past, hpos]

end

/-! ## A replacement -/

/-- Three processes that expect a group of two. -/
def trio : Deployment (Fin 3) := .numbered fun _ ↦ 2

/-- Two replicas start up; the second one leaves. -/
def departure : List (Event (Fin 3) Action) :=
  [.join 0, .deliver 0, .join 1, .deliver 0, .deliver 1, .order 0, .deliver 0, .deliver 1,
    .leave 1, .deliver 0]

/-- A deposit is delivered before the third process joins. -/
def depositThenJoin : List (Event (Fin 3) Action) :=
  [.act 0 (.command "deposit 100"), .act 0 (.tick 1), .order 0, .deliver 0, .join 2, .deliver 0,
    .deliver 2, .order 0, .deliver 0, .deliver 2]

theorem balances_agree_depositThenJoin :
    trio.system.Always Agree trio.start (departure ++ depositThenJoin) :=
  balances_agree trio (by decide +kernel) (by decide +kernel)

/-- The third process joins while a deposit is on its way. -/
def joinThenDeposit : List (Event (Fin 3) Action) :=
  [.act 0 (.command "deposit 100"), .act 0 (.tick 1), .join 2, .order 0, .deliver 0, .deliver 0,
    .order 0, .deliver 0, .deliver 2, .deliver 2, .deliver 2]

/-- The first replica reads its balance of 0 for the new one, and the deposit comes before
it: 100 at the one, and 0 at the other, though the group has never been larger than two. -/
theorem not_agree_joinThenDeposit : (∀ e ∈ departure ++ joinThenDeposit, ¬ Clears e) ∧
    ∃ s p p', trio.system.run trio.start (departure ++ joinThenDeposit) = some s ∧
      (∀ x ∈ s.log, ∀ v ∈ x.view?, v.members.length ≤ 2) ∧
      s.proc 0 = some p ∧ s.proc 2 = some p' ∧
      p.node.machine.alreadyInitializedBalance ∧ p'.node.machine.alreadyInitializedBalance ∧
      p.position = p'.position ∧
      p.node.machine.replica.balance = 100 ∧ p'.node.machine.replica.balance = 0 := by
  refine ⟨by decide +kernel, ?_⟩
  have h : (trio.system.run trio.start (departure ++ joinThenDeposit)).any (fun s ↦
      (∀ x ∈ s.log, ∀ v ∈ x.view?, v.members.length ≤ 2) ∧
      (s.proc 0).any (fun p ↦ (s.proc 2).any fun p' ↦
        p.node.machine.alreadyInitializedBalance ∧ p'.node.machine.alreadyInitializedBalance ∧
        p.position = p'.position ∧
        p.node.machine.replica.balance = 100 ∧ p'.node.machine.replica.balance = 0)) := by
    decide +kernel
  obtain ⟨s, hs, h⟩ := (Option.any_eq_true _ _).mp h
  obtain ⟨hsize, h⟩ := of_decide_eq_true h
  obtain ⟨p, hp, h⟩ := (Option.any_eq_true _ _).mp h
  obtain ⟨p', hp', h⟩ := (Option.any_eq_true _ _).mp h
  exact ⟨s, p, p', hs, hsize, hp, hp', of_decide_eq_true h⟩

end ReplicatedBank
