import ReplicatedBank.Distributed.Automaton
import ReplicatedBank.Ledger

/-!
# Replicas as processes of a group

A replica packaged as an automaton: its main thread processes command lines, its
executor ticks, and its listener is handed messages and memberships.  Each handler and
each command is one step.

Two things are added that the program does not have, both for stating properties of
runs: the list of all transactions a process has accepted (`Process.accepted`), and on
each multicast how it came to be sent (`Packet`).  No step reads them.
-/

namespace ReplicatedBank

open Distributed

/-- What happens at a replica's own site. -/
inductive Action where
  /-- The main thread processes a line. -/
  | command (input : String)
  /-- The executor multicasts the outstanding collection, or a prefix of it of length
  `sent` when a `SpreadException` cuts the batch short. -/
  | tick (sent : ℕ)
deriving DecidableEq, Repr

/-- Whether an action is a `cleanHistory` command. -/
def Action.isCleanHistory : Action → Bool
  | .command input => ReplicatedBank.isCleanHistory input
  | .tick _ => false

/-- A multicast transaction.  Receivers see the transaction only. -/
structure Packet where
  transaction : Transaction
  /-- History: whether `membershipMessageReceived` sent it. -/
  stateTransfer : Bool
  /-- History: whether its sender had installed a balance when sending it. -/
  senderInitialized : Bool
deriving DecidableEq

/-- The transactions in a sequence of multicasts. -/
def transactions (qs : List Packet) : List Transaction := qs.map Packet.transaction

@[simp] theorem transactions_nil : transactions [] = [] := rfl

@[simp] theorem transactions_append (qs qs' : List Packet) :
    transactions (qs ++ qs') = transactions qs ++ transactions qs' := List.map_append

/-- A replica process. -/
structure Process where
  machine : ReplicatedStateMachine
  /-- History: the transactions queued by `parseInput`, in order. -/
  accepted : List Transaction
deriving DecidableEq

namespace Process

/-- A process that has just been started. -/
def new (replicaName privateGroup : String) (numberOfReplicas : ℤ) : Process :=
  ⟨.new replicaName privateGroup numberOfReplicas, []⟩

/-- A replica that has finished starting up with a balance. -/
def started (replicaName privateGroup : String) (numberOfReplicas : ℤ) (balance : ℚ) :
    Process where
  machine := { ReplicatedStateMachine.new replicaName privateGroup numberOfReplicas with
    replica := ⟨balance, [], [], 0, 0⟩
    alreadyInitializedBalance := true }
  accepted := []

/-- The ledger of a process. -/
abbrev ledger (p : Process) : Ledger := p.machine.ledger

/-- The transactions of a process that are still outstanding. -/
abbrev outstanding (p : Process) : List Transaction := p.machine.replica.outstandingCollection

/-- The multicasts of some transactions. -/
def wrap (p : Process) (stateTransfer : Bool) (sent : List Transaction) : List Packet :=
  sent.map (⟨·, stateTransfer, p.machine.alreadyInitializedBalance⟩)

@[simp] theorem transactions_wrap (p : Process) (stateTransfer : Bool) (sent : List Transaction) :
    transactions (p.wrap stateTransfer sent) = sent := by
  simp [transactions, wrap, Function.comp_def]

def act (p : Process) : Action → Process × List Packet
  | .command input =>
      ({ machine := p.machine.command input, accepted := p.accepted ++ p.machine.queued input }, [])
  | .tick sent =>
      let (machine, batch) := p.machine.broadcast sent
      ({ p with machine := machine }, p.wrap false batch)

def receive (p : Process) (q : Packet) : Process :=
  { p with machine := AdvancedListener.regularMessageReceived p.machine q.transaction }

/-- A membership as the Spread library reports it. -/
def membershipInfo {ι : Type*} (privateGroup : ι → String) (v : View ι) : MembershipInfo where
  isCausedByJoin := v.cause = .join
  isCausedByLeave := v.cause = .leave
  isCausedByDisconnect := v.cause = .disconnect
  members := v.members.map privateGroup
  joined := if v.cause = .join then some (privateGroup v.subject) else none

def view {ι : Type*} (privateGroup : ι → String) (p : Process) (v : View ι) :
    Process × List Packet :=
  let (machine, sent) :=
    AdvancedListener.membershipMessageReceived p.machine (membershipInfo privateGroup v)
  ({ p with machine := machine }, p.wrap true sent)

end Process

/-- The automaton that a group of replicas runs. -/
def bank {ι : Type*} (privateGroup : ι → String) : Automaton ι Process Packet Action where
  act := Process.act
  receive p q := (p.receive q, [])
  view := Process.view privateGroup

/-! ## What a message does beside the ledger -/

namespace AdvancedListener

open ReplicatedStateMachine

variable {m : ReplicatedStateMachine} {t : Transaction}

/-- A message that takes its entry out of the outstanding collection: it passes the
duplicate filter and is not an `UPDATE_BALANCE`. -/
structure Consumes (m : ReplicatedStateMachine) (t : Transaction) : Prop where
  fresh : t.uniqueId ∉ ids m.replica.executedList
  type_eq : t.isMonetary ∨ t.type = .syncedBalance

theorem Consumes.ne_updateBalance {m : ReplicatedStateMachine} {t : Transaction}
    (h : Consumes m t) : t.type ≠ .updateBalance := by
  rcases h.type_eq with hm | hty
  · exact Transaction.ne_updateBalance hm
  · simp [hty]

/-- The fields a message does not touch. -/
structure SameProcess (m m' : ReplicatedStateMachine) : Prop where
  replicaName : m'.replicaName = m.replicaName
  privateGroup : m'.privateGroup = m.privateGroup
  numberOfReplicas : m'.numberOfReplicas = m.numberOfReplicas
  replicas : m'.replicas = m.replicas
  main : m'.main = m.main
  outstandingCounter : m'.replica.outstandingCounter = m.replica.outstandingCounter

theorem filter_iff : m.replica.executedList.any (·.uniqueId = t.uniqueId) ↔
    t.uniqueId ∈ ids m.replica.executedList := Client.alreadyExecuted_iff

/-- A message the duplicate filter stops does nothing at all. -/
theorem regularMessageReceived_of_mem (h : t.uniqueId ∈ ids m.replica.executedList) :
    regularMessageReceived m t = m := if_pos (filter_iff.mpr h)

theorem regularMessageReceived_of_notMem (h : t.uniqueId ∉ ids m.replica.executedList) :
    regularMessageReceived m t = match t.type with
      | .deposit => receiveDeposit m t
      | .interest => receiveInterest m t
      | .syncedBalance => receiveSyncedBalance m t
      | .updateBalance => receiveUpdateBalance m t
      | .none => receiveOther m t := if_neg fun hc ↦ h (filter_iff.mp hc)

theorem execute_of_notMem {c : Client} {effect : ℚ → ℚ}
    (h : t.uniqueId ∉ ids c.executedList) : c.execute t effect =
      { c.removeOutstanding t with
        balance := effect c.balance
        executedList := c.executedList ++ [t]
        orderCounter := c.orderCounter.incrementAndGet } :=
  Client.execute_of_not_alreadyExecuted fun hc ↦ h (Client.alreadyExecuted_iff.mp hc)

theorem getSyncedBalance_of_notMem {c : Client} (h : t.uniqueId ∉ ids c.executedList) :
    c.getSyncedBalance t =
      (c.removeOutstanding t, [Client.print [.text "Synced Balance: ", .number c.balance]]) :=
  if_neg fun hc ↦ h (Client.alreadyExecuted_iff.mp hc)

/-- **What a message can do**: execute a transaction, answer a synced balance, or touch
nothing of the account but the balance. -/
theorem regularMessageReceived_cases (m : ReplicatedStateMachine) (t : Transaction) :
    ∃ replica initialized written, regularMessageReceived m t =
      { m with
        replica := replica
        alreadyInitializedBalance := initialized
        written := written } ∧
      (t.uniqueId ∉ ids m.replica.executedList ∧ t.isMonetary ∧
          (∃ effect, replica = m.replica.execute t effect) ∨
        t.uniqueId ∉ ids m.replica.executedList ∧ t.type = .syncedBalance ∧
          replica = m.replica.removeOutstanding t ∨
        ¬ Consumes m t ∧ ∃ balance, replica = { m.replica with balance := balance }) := by
  by_cases hf : t.uniqueId ∈ ids m.replica.executedList
  · rw [regularMessageReceived_of_mem hf]
    exact ⟨_, _, _, rfl, .inr (.inr ⟨fun hc ↦ hc.fresh hf, _, rfl⟩)⟩
  · rw [regularMessageReceived_of_notMem hf]
    cases hty : t.type with
    | deposit =>
        have hm : t.isMonetary := Transaction.isMonetary_iff.mpr (.inl hty)
        exact ⟨_, _, _, rfl, .inl ⟨hf, hm, (· + t.balance), rfl⟩⟩
    | interest =>
        have hm : t.isMonetary := Transaction.isMonetary_iff.mpr (.inr hty)
        exact ⟨_, _, _, rfl, .inl ⟨hf, hm, (· * (1 + t.percent / 100)), rfl⟩⟩
    | syncedBalance =>
        dsimp only [receiveSyncedBalance]
        rw [getSyncedBalance_of_notMem hf]
        exact ⟨_, _, _, rfl, .inr (.inl ⟨hf, rfl, rfl⟩)⟩
    | updateBalance =>
        have hn : ¬ Consumes m t := fun hc ↦ hc.ne_updateBalance hty
        dsimp only [receiveUpdateBalance]
        split
        · exact ⟨_, _, _, rfl, .inr (.inr ⟨hn, _, rfl⟩)⟩
        · exact ⟨_, _, _, rfl, .inr (.inr ⟨hn, _, rfl⟩)⟩
    | none =>
        have hn : ¬ Consumes m t := fun hc ↦ by
          simpa [Transaction.isMonetary, hty] using hc.type_eq
        exact ⟨_, _, _, rfl, .inr (.inr ⟨hn, _, rfl⟩)⟩

theorem sameProcess_regularMessageReceived (m : ReplicatedStateMachine) (t : Transaction) :
    SameProcess m (regularMessageReceived m t) := by
  obtain ⟨replica, initialized, written, h, hreplica⟩ := regularMessageReceived_cases m t
  have hcounter : replica.outstandingCounter = m.replica.outstandingCounter := by
    rcases hreplica with ⟨hf, -, effect, rfl⟩ | ⟨-, -, rfl⟩ | ⟨-, balance, rfl⟩
    · rw [execute_of_notMem hf]
      rfl
    · rfl
    · rfl
  rw [h]
  exact ⟨rfl, rfl, rfl, rfl, rfl, hcounter⟩

/-- A message that consumes removes the first entry with its id. -/
theorem outstandingCollection_of_consumes (h : Consumes m t) :
    (regularMessageReceived m t).replica.outstandingCollection =
      m.replica.outstandingCollection.eraseP (·.uniqueId = t.uniqueId) := by
  obtain ⟨_, _, _, hm, ⟨hf, -, effect, rfl⟩ | ⟨-, -, rfl⟩ | ⟨hn, -⟩⟩ :=
    regularMessageReceived_cases m t
  · rw [hm, execute_of_notMem hf]
    rfl
  · rw [hm]
    rfl
  · exact absurd h hn

/-- Any other message leaves the outstanding collection alone. -/
theorem outstandingCollection_of_not_consumes (h : ¬ Consumes m t) :
    (regularMessageReceived m t).replica.outstandingCollection =
      m.replica.outstandingCollection := by
  obtain ⟨_, _, _, hm, ⟨hf, hty, -⟩ | ⟨hf, hty, -⟩ | ⟨-, balance, rfl⟩⟩ :=
    regularMessageReceived_cases m t
  · exact absurd ⟨hf, .inl hty⟩ h
  · exact absurd ⟨hf, .inr hty⟩ h
  · rw [hm]

/-- No message adds to the outstanding collection. -/
theorem outstandingCollection_subset (m : ReplicatedStateMachine) (t : Transaction) :
    (regularMessageReceived m t).replica.outstandingCollection ⊆
      m.replica.outstandingCollection := by
  by_cases h : Consumes m t
  · rw [outstandingCollection_of_consumes h]
    exact List.eraseP_subset
  · rw [outstandingCollection_of_not_consumes h]
    exact List.Subset.refl _

/-- The order counter counts the executed transactions. -/
theorem orderCounter_regularMessageReceived {m : ReplicatedStateMachine}
    (h : m.replica.orderCounter = .after m.replica.executedList.length) (t : Transaction) :
    (regularMessageReceived m t).replica.orderCounter =
      .after (regularMessageReceived m t).replica.executedList.length := by
  obtain ⟨_, _, _, hm, ⟨hf, -, effect, rfl⟩ | ⟨-, -, rfl⟩ | ⟨-, balance, rfl⟩⟩ :=
    regularMessageReceived_cases m t
  · rw [hm, execute_of_notMem hf, List.length_append, List.length_singleton]
    simp only [h, AtomicInteger.incrementAndGet_after]
  · rw [hm]
    exact h
  · rw [hm]
    exact h

end AdvancedListener

/-! ## Steps of a process -/

namespace Process

variable {p : Process} {k : Action} {q : Packet}

/-- **What a local action can do**: multicast part of the outstanding collection, queue a
transaction, or clear the history. -/
theorem act_cases (p : Process) (k : Action) :
    (∃ n, (p.act k).1.machine.replica = p.machine.replica ∧
      (p.act k).1.accepted = p.accepted ∧
      (p.act k).2 = p.wrap false (p.outstanding.take n)) ∨
    (∃ t, p.machine.Accepts t ∧
      (p.act k).1.machine.replica = p.machine.replica.addOutstandingCollection t ∧
      (p.act k).1.accepted = p.accepted ++ [t] ∧ (p.act k).2 = []) ∨
    (∃ input, k = .command input ∧ isCleanHistory input ∧
      (p.act k).1.machine.replica = p.machine.replica.setExecutedTransactions [] ∧
      (p.act k).1.accepted = p.accepted ∧ (p.act k).2 = []) := by
  cases k with
  | command input =>
      rcases p.machine.command_cases input with ⟨hq, hr⟩ | ⟨t, ht, hq, hr⟩ | ⟨hc, hq, hr⟩
      · exact .inl ⟨0, hr, by simp [act, hq], by simp [act, wrap]⟩
      · exact .inr (.inl ⟨t, ht, hr, by simp [act, hq], rfl⟩)
      · exact .inr (.inr ⟨input, rfl, hc, hr, by simp [act, hq], rfl⟩)
  | tick sent =>
      obtain ⟨lines, h⟩ := p.machine.broadcast_eq sent
      exact .inl ⟨sent, by simp [act, h, ReplicatedStateMachine.write], rfl, by simp [act, h]⟩

/-- What an action multicasts is the first part of the outstanding collection. -/
theorem act_isPrefix (p : Process) (k : Action) :
    (p.act k).2 <+: p.wrap false p.outstanding := by
  rcases p.act_cases k with ⟨n, -, -, hs⟩ | ⟨t, -, -, -, hs⟩ | ⟨input, -, -, -, -, hs⟩ <;> rw [hs]
  · exact (List.take_prefix n _).map _
  · exact List.nil_prefix
  · exact List.nil_prefix

/-- What an action of a process adds to the accepted transactions. -/
def queued (p : Process) (k : Action) : List Transaction :=
  (p.act k).1.accepted.drop p.accepted.length

theorem accepted_act (p : Process) (k : Action) :
    (p.act k).1.accepted = p.accepted ++ p.queued k := by
  rcases p.act_cases k with ⟨n, -, ha, -⟩ | ⟨t, -, -, ha, -⟩ | ⟨input, -, -, -, ha, -⟩ <;>
    simp [queued, ha]

theorem outstanding_act (p : Process) (k : Action) :
    (p.act k).1.outstanding = p.outstanding ++ p.queued k := by
  rcases p.act_cases k with ⟨n, hm, ha, -⟩ | ⟨t, -, hm, ha, -⟩ | ⟨input, -, -, hm, ha, -⟩ <;>
    simp [queued, outstanding, ha, hm, Client.addOutstandingCollection,
      Client.setExecutedTransactions]

theorem executedList_act (p : Process) (k : Action) :
    (p.act k).1.machine.replica.executedList = p.machine.replica.executedList ∨
      (p.act k).1.machine.replica.executedList = [] := by
  rcases p.act_cases k with ⟨n, hm, -⟩ | ⟨t, -, hm, -⟩ | ⟨input, -, -, hm, -⟩ <;> rw [hm]
  · exact .inl rfl
  · exact .inl rfl
  · exact .inr rfl

/-- An action accepts one transaction at most. -/
theorem queued_eq (p : Process) (k : Action) : p.queued k = [] ∨ ∃ t, p.queued k = [t] := by
  rcases p.act_cases k with ⟨n, -, ha, -⟩ | ⟨t, -, -, ha, -⟩ | ⟨input, -, -, -, ha, -⟩
  · exact .inl (by simp [queued, ha])
  · exact .inr ⟨t, by simp [queued, ha]⟩
  · exact .inl (by simp [queued, ha])

/-- A command queues what it may. -/
theorem accepts_of_mem_queued {t : Transaction} (ht : t ∈ p.queued k) : p.machine.Accepts t := by
  rcases p.act_cases k with ⟨n, -, ha, -⟩ | ⟨u, hu, -, ha, -⟩ | ⟨input, -, -, -, ha, -⟩ <;>
    rw [queued, ha] at ht
  · simp at ht
  · obtain rfl : t = u := by simpa using ht
    exact hu
  · simp at ht

/-- What stays outstanding has been accepted. -/
theorem outstanding_act_subset (k : Action) (h : p.outstanding ⊆ p.accepted) :
    (p.act k).1.outstanding ⊆ (p.act k).1.accepted := by
  rw [outstanding_act, accepted_act]
  exact List.append_subset.mpr ⟨List.Subset.trans h (List.subset_append_left _ _),
    List.subset_append_right _ _⟩

/-- What an action multicasts has been accepted. -/
theorem mem_accepted_of_mem_act (h : p.outstanding ⊆ p.accepted) (hq : q ∈ (p.act k).2) :
    q.transaction ∈ p.accepted := by
  obtain ⟨t, ht, rfl⟩ := List.mem_map.mp ((p.act_isPrefix k).subset hq)
  exact h ht

theorem sameSetting_act (p : Process) (k : Action) : p.machine.SameSetting (p.act k).1.machine := by
  cases k with
  | command input => exact (ReplicatedStateMachine.commanded p.machine input).toSameSetting
  | tick sent =>
      obtain ⟨lines, h⟩ := p.machine.broadcast_eq sent
      simp only [act, h]
      exact ⟨rfl, rfl, rfl, rfl, rfl⟩

theorem ledger_act (h : ¬ k.isCleanHistory) : (p.act k).1.ledger = p.ledger := by
  cases k with
  | command input => exact p.machine.ledger_command h
  | tick sent => exact p.machine.ledger_broadcast sent

@[simp] theorem ledger_receive : (p.receive q).ledger = p.ledger.deliver q.transaction :=
  p.machine.ledger_regularMessageReceived q.transaction

/-- What has been executed after a message. -/
theorem mem_executedList_receive {t : Transaction}
    (ht : t ∈ (p.receive q).machine.replica.executedList) :
    t ∈ p.machine.replica.executedList ∨ t = q.transaction ∧ t.isMonetary := by
  have ht : t ∈ (p.receive q).ledger.executed := ht
  rw [ledger_receive] at ht
  rcases p.ledger.deliver_cases q.transaction with ⟨hx, hd⟩ | ⟨-, hd⟩ | ⟨-, -, hd⟩ <;> rw [hd] at ht
  · rcases List.mem_append.mp ht with ht | ht
    · exact .inl ht
    · obtain rfl := List.mem_singleton.mp ht
      exact .inr ⟨rfl, hx.isMonetary⟩
  · exact .inl ht
  · exact .inl ht

@[simp] theorem ledger_view {ι : Type*} (privateGroup : ι → String) (p : Process) (v : View ι) :
    (p.view privateGroup v).1.ledger = p.ledger :=
  p.machine.ledger_membershipMessageReceived _

/-- What a membership makes a process send. -/
theorem view_sent {ι : Type*} (privateGroup : ι → String) (p : Process) (v : View ι) :
    (p.view privateGroup v).2 = p.wrap true
      (AdvancedListener.membershipMessageReceived p.machine
        (membershipInfo privateGroup v)).2 := rfl

/-- That is the first part of its balance and its history. -/
theorem view_isPrefix {ι : Type*} (privateGroup : ι → String) (p : Process) (v : View ι) :
    (p.view privateGroup v).2 <+: p.wrap true
      (AdvancedListener.updateBalance p.machine :: p.machine.replica.executedList) := by
  rw [view_sent, AdvancedListener.membershipMessageReceived_sent]
  refine List.IsPrefix.map _ ?_
  split
  · refine (List.prefix_cons_inj _).mpr ?_
    split
    · exact List.prefix_refl _
    · exact List.nil_prefix
  · exact List.nil_prefix

/-- The multicast of its balance with which a process answers the joining of another one. -/
def answer (p : Process) : Packet :=
  ⟨AdvancedListener.updateBalance p.machine, true, p.machine.alreadyInitializedBalance⟩

/-- With no history to send, a process answers the joining of another one with its balance. -/
theorem view_sent_of_le {ι : Type*} (privateGroup : ι → String) {p : Process} {v : View ι}
    (h : v.members.length ≤ p.machine.numberOfReplicas) : (p.view privateGroup v).2 =
      if v.cause = .join ∧ privateGroup v.subject ≠ p.machine.privateGroup then [p.answer]
      else [] := by
  have hn : ¬ p.machine.numberOfReplicas < (membershipInfo privateGroup v).members.length := by
    rw [membershipInfo, List.length_map]
    exact not_lt.mpr h
  rw [view_sent, AdvancedListener.membershipMessageReceived_sent, if_neg hn]
  by_cases hjoin : v.cause = .join
  · by_cases hself : privateGroup v.subject = p.machine.privateGroup
    · simp [membershipInfo, hjoin, hself, wrap]
    · simp [membershipInfo, hjoin, hself, wrap, answer]
  · simp [membershipInfo, hjoin, wrap]

theorem view_replica {ι : Type*} (privateGroup : ι → String) (p : Process) (v : View ι) :
    (p.view privateGroup v).1.machine.replica = p.machine.replica :=
  AdvancedListener.membershipMessageReceived_replica p.machine _

theorem view_replicaName {ι : Type*} (privateGroup : ι → String) (p : Process) (v : View ι) :
    (p.view privateGroup v).1.machine.replicaName = p.machine.replicaName :=
  AdvancedListener.membershipMessageReceived_replicaName p.machine _

theorem ledger_new (replicaName privateGroup : String) (numberOfReplicas : ℤ) :
    (new replicaName privateGroup numberOfReplicas).ledger = .empty := rfl

@[simp] theorem receive_accepted : (p.receive q).accepted = p.accepted := rfl

@[simp] theorem receive_outstandingCounter : (p.receive q).machine.replica.outstandingCounter =
    p.machine.replica.outstandingCounter :=
  (AdvancedListener.sameProcess_regularMessageReceived p.machine _).outstandingCounter

@[simp] theorem receive_replicaName :
    (p.receive q).machine.replicaName = p.machine.replicaName :=
  (AdvancedListener.sameProcess_regularMessageReceived p.machine _).replicaName

@[simp] theorem act_replicaName : (p.act k).1.machine.replicaName = p.machine.replicaName :=
  (sameSetting_act p k).replicaName

/-! ## Numbering -/

/-- A replica numbers the transactions it accepts, from 0 and through the wrap-around of
its counter. -/
structure Numbered (p : Process) : Prop where
  outstandingCounter_eq : p.machine.replica.outstandingCounter = .after p.accepted.length
  ids_accepted : ids p.accepted =
    (List.range p.accepted.length).map fun n ↦ uniqueId p.machine.replicaName (.after n)

theorem Numbered.receive (h : p.Numbered) : (p.receive q).Numbered where
  outstandingCounter_eq := by simpa using h.outstandingCounter_eq
  ids_accepted := by simpa using h.ids_accepted

theorem Numbered.act (h : p.Numbered) (k : Action) : (p.act k).1.Numbered := by
  rcases act_cases p k with ⟨n, hm, ha, -⟩ | ⟨t, ht, hm, ha, -⟩ | ⟨input, -, -, hm, ha, -⟩
  · exact ⟨by rw [hm, ha, h.outstandingCounter_eq], by rw [ha, act_replicaName, h.ids_accepted]⟩
  · refine ⟨?_, ?_⟩
    · rw [hm, ha, Client.addOutstandingCollection, List.length_append, List.length_singleton]
      simp only [h.outstandingCounter_eq, AtomicInteger.incrementAndGet_after]
    · rw [ha, act_replicaName, ids_append, h.ids_accepted, List.length_append,
        List.length_singleton, List.range_succ, List.map_append, List.map_singleton]
      simp [ids, ht.uniqueId_eq, ReplicatedStateMachine.nextUniqueId, h.outstandingCounter_eq]
  · refine ⟨?_, by rw [ha, act_replicaName, h.ids_accepted]⟩
    rw [hm, ha, Client.setExecutedTransactions]
    exact h.outstandingCounter_eq

theorem Numbered.view {ι : Type*} (h : p.Numbered) (privateGroup : ι → String) (v : View ι) :
    (p.view privateGroup v).1.Numbered where
  outstandingCounter_eq := by
    rw [view_replica]
    exact h.outstandingCounter_eq
  ids_accepted := by
    rw [view_replicaName]
    exact h.ids_accepted

/-- The id of what a replica accepts is its name and the number of what it has accepted
before. -/
theorem Numbered.uniqueId_eq (h : p.Numbered) {n : ℕ} {t : Transaction}
    (ht : p.accepted[n]? = some t) : t.uniqueId = uniqueId p.machine.replicaName (.after n) := by
  have hids : (ids p.accepted)[n]? = some t.uniqueId := by
    rw [ids, List.getElem?_map, ht]
    rfl
  rw [h.ids_accepted, List.getElem?_map,
    List.getElem?_range (List.getElem?_eq_some_iff.mp ht).1] at hids
  exact (Option.some.inj hids).symm

/-- The ids of what a replica accepts carry its name. -/
theorem Numbered.issued (h : p.Numbered) {t : Transaction} (ht : t ∈ p.accepted) :
    Issued p.machine.replicaName t := by
  obtain ⟨n, hn⟩ := List.getElem?_of_mem ht
  exact ⟨_, h.uniqueId_eq hn⟩

/-- Up to `2 ^ 32` accepted transactions have different ids. -/
theorem Numbered.nodup_ids (h : p.Numbered) (hlen : p.accepted.length ≤ 2 ^ 32) :
    (ids p.accepted).Nodup := by
  rw [h.ids_accepted, List.nodup_map_iff_inj_on List.nodup_range]
  intro m hm n hn hmn
  rw [List.mem_range] at hm hn
  exact AtomicInteger.after_inj (by omega) (by omega) (uniqueId_inj.mp hmn).2

/-! ## An idle replica -/

/-- A replica that reads commands, with its name, its account, the `DEPOSIT`s and
`INTEREST`s and the number of all transactions it has accepted. -/
structure Reads (p : Process) (name : String) (c : Client) (ts : List Transaction) (n : ℕ) :
    Prop where
  main : p.machine.main = .reading
  replicaName : p.machine.replicaName = name
  replica : p.machine.replica = c
  monetary : monetary p.accepted = ts
  length : p.accepted.length = n

/-- The synced balance that an account queues next. -/
def syncedBalance (name : String) (c : Client) : Transaction where
  uniqueId := uniqueId name c.outstandingCounter
  command := "getSyncedBalance"
  type := .syncedBalance

/-- The transaction of a line `deposit <amount>`. -/
def deposited (name : String) (counter : AtomicInteger) (amount : ℚ) : Transaction where
  uniqueId := uniqueId name counter
  command := "deposit"
  balance := amount
  type := .deposit

variable {name : String} {c : Client} {ts : List Transaction} {n : ℕ}

/-- With nothing outstanding, `getSyncedBalance` queues a synced balance. -/
theorem Reads.getSyncedBalance (h : p.Reads name c ts n) (hc : c.outstandingCollection = []) :
    (p.act (.command "getSyncedBalance")).1.Reads name
      (c.addOutstandingCollection (syncedBalance name c)) ts (n + 1) := by
  have hword : argument (splitSpaces "getSyncedBalance") 0 = .ok "getSyncedBalance" := by
    decide +kernel
  have hcommand : p.machine.command "getSyncedBalance" =
      p.machine.getSyncedBalance "getSyncedBalance" :=
    ReplicatedStateMachine.command_getSyncedBalance h.main hword (by decide +kernel)
  have hsynced : p.machine.getSyncedBalance "getSyncedBalance" =
      (p.machine.write [ReplicatedStateMachine.print [.text "getSyncedBalance"]]).queue
        (syncedBalance name c) := by
    rw [ReplicatedStateMachine.getSyncedBalance, if_pos]
    · simp only [syncedBalance, ReplicatedStateMachine.nextUniqueId, ← h.replica, ← h.replicaName]
      rfl
    · simp [ReplicatedStateMachine.write, h.replica, hc]
  have hqueued : p.machine.queued "getSyncedBalance" = [syncedBalance name c] := by
    rw [ReplicatedStateMachine.queued, hcommand, hsynced]
    simp [ReplicatedStateMachine.queue, ReplicatedStateMachine.write,
      Client.addOutstandingCollection]
  simp only [act, hcommand, hsynced, hqueued]
  exact ⟨h.main, h.replicaName, congrArg (Client.addOutstandingCollection · _) h.replica,
    by rw [monetary_append, h.monetary]; simp [ReplicatedBank.monetary, syncedBalance,
      Transaction.isMonetary], by simp [h.length]⟩

/-- A well-formed `deposit` line for an amount. -/
structure DepositLine (input : String) (amount : ℚ) : Prop where
  word : argument (splitSpaces input) 0 = .ok "deposit"
  pattern : matchesDeposit input
  amount : (argument (splitSpaces input) 1 >>= parseDouble) = .ok amount

instance (input : String) (amount : ℚ) : Decidable (DepositLine input amount) :=
  decidable_of_iff (_ ∧ _ ∧ _) ⟨fun h ↦ ⟨h.1, h.2.1, h.2.2⟩, fun h ↦ ⟨h.1, h.2, h.3⟩⟩

/-- A `deposit` line. -/
theorem Reads.deposit (h : p.Reads name c ts n) {input : String} {amount : ℚ}
    (hline : DepositLine input amount) :
    (p.act (.command input)).1.Reads name
      (c.addOutstandingCollection (deposited name c.outstandingCounter amount))
      (ts ++ [deposited name c.outstandingCounter amount]) (n + 1) := by
  have hcommand := ReplicatedStateMachine.command_deposit h.main hline.word
    (by decide +kernel) hline.pattern hline.amount
  rw [ReplicatedStateMachine.nextUniqueId, h.replica, h.replicaName] at hcommand
  change _ = (p.machine.queue (deposited name c.outstandingCounter amount)).write _ at hcommand
  have hqueued : p.machine.queued input =
      [deposited name c.outstandingCounter amount] := by
    rw [ReplicatedStateMachine.queued, hcommand]
    simp [ReplicatedStateMachine.queue, ReplicatedStateMachine.write,
      Client.addOutstandingCollection]
  simp only [act, hcommand, hqueued]
  exact ⟨h.main, h.replicaName, congrArg (Client.addOutstandingCollection · _) h.replica,
    by rw [monetary_append, h.monetary]; simp [ReplicatedBank.monetary,
      deposited, Transaction.isMonetary], by simp [h.length]⟩

/-- A tick of the executor. -/
theorem Reads.tick (h : p.Reads name c ts n) (k : ℕ) : (p.act (.tick k)).1.Reads name c ts n ∧
    transactions (p.act (.tick k)).2 = c.outstandingCollection.take k := by
  obtain ⟨lines, hb⟩ := p.machine.broadcast_eq k
  simp only [act, hb, transactions_wrap, h.replica, and_true]
  exact ⟨h.main, h.replicaName, h.replica, h.monetary, h.length⟩

/-- A delivery, by what it does to the account. -/
theorem Reads.receive (h : p.Reads name c ts n) {c' : Client}
    (hc : (p.receive q).machine.replica = c') : (p.receive q).Reads name c' ts n where
  main := (AdvancedListener.sameProcess_regularMessageReceived p.machine _).main.trans h.main
  replicaName := receive_replicaName.trans h.replicaName
  replica := hc
  monetary := h.monetary
  length := h.length

theorem Reads.receive_of_mem (h : p.Reads name c ts n)
    (hq : q.transaction.uniqueId ∈ ids c.executedList) : (p.receive q).Reads name c ts n :=
  h.receive (by
    rw [Process.receive, AdvancedListener.regularMessageReceived_of_mem (by rwa [h.replica])]
    exact h.replica)

theorem Reads.receive_syncedBalance (h : p.Reads name c ts n)
    (hty : q.transaction.type = .syncedBalance)
    (hq : q.transaction.uniqueId ∉ ids c.executedList) :
    (p.receive q).Reads name (c.removeOutstanding q.transaction) ts n := by
  have hq' : q.transaction.uniqueId ∉ ids p.machine.replica.executedList := by rwa [h.replica]
  refine h.receive ?_
  rw [Process.receive, AdvancedListener.regularMessageReceived_of_notMem hq', hty]
  simp only [AdvancedListener.receiveSyncedBalance,
    AdvancedListener.getSyncedBalance_of_notMem hq']
  exact congrArg (Client.removeOutstanding · _) h.replica

theorem Reads.receive_deposit (h : p.Reads name c ts n) (hty : q.transaction.type = .deposit) :
    (p.receive q).Reads name (c.deposit q.transaction q.transaction.balance) ts n := by
  by_cases hq : q.transaction.uniqueId ∈ ids c.executedList
  · rw [Client.deposit, Client.execute_of_alreadyExecuted (Client.alreadyExecuted_iff.mpr hq)]
    exact h.receive_of_mem hq
  · refine h.receive ?_
    rw [Process.receive,
      AdvancedListener.regularMessageReceived_of_notMem (by rwa [h.replica]), hty]
    simp only [AdvancedListener.receiveDeposit, h.replica]
    rfl

/-- The account of an idle replica after a synced balance has come and gone. -/
theorem removeOutstanding_syncedBalance (hc : c.outstandingCollection = []) :
    (c.addOutstandingCollection (syncedBalance name c)).removeOutstanding (syncedBalance name c) =
      { c with outstandingCounter := c.outstandingCounter.incrementAndGet } := by
  simp [Client.addOutstandingCollection, Client.removeOutstanding, hc]

/-- The account of `Rep1` after a deposit, with `n` transactions accepted in all. -/
def counted (n : ℕ) : Client := ⟨1, [deposited "Rep1" 0 1], [], 1, .after n⟩

/-- The id of the deposit comes up again only when the counter has wrapped around. -/
theorem uniqueId_notMem_counted (hn : 0 < n) (hlt : n < 2 ^ 32) :
    uniqueId "Rep1" (.after n) ∉ ids (counted n).executedList := by
  intro hc
  have hid : uniqueId "Rep1" (.after n) = uniqueId "Rep1" (.after 0) := by
    simpa [ids, deposited, counted] using hc
  have := AtomicInteger.after_inj hlt (by omega) (uniqueId_inj.mp hid).2
  omega

/-- A synced balance comes and goes. -/
theorem removeOutstanding_counted (n : ℕ) :
    ((counted n).addOutstandingCollection (syncedBalance "Rep1" (counted n))).removeOutstanding
      (syncedBalance "Rep1" (counted n)) = counted (n + 1) := by
  rw [removeOutstanding_syncedBalance rfl, counted, AtomicInteger.incrementAndGet_after, counted]

end Process

end ReplicatedBank
