import ReplicatedBank.ChangingGroup

/-!
# Balances that share an id with a transaction

An `UPDATE_BALANCE` is labelled with the counter that the sender's next transaction is going
to use, so that two messages have one id, and ids are all that the duplicate filter and the
outstanding collection go by.

An `UPDATE_BALANCE` enters neither of the two lists; so the filter could only stop it if the
transaction that shares its id had been executed before.  The sender multicasts the
`UPDATE_BALANCE` before it accepts that transaction.  Whatever else is multicast under the
id, by the sender or in somebody's history, is a copy of the transaction, and goes back to a
copy multicast by the sender (`mem_accepted_of_mem_log`, `uniqueId_ne_of_lt`).

All this holds until a counter has gone through its `2 ^ 32` values.
-/

namespace ReplicatedBank

open Distributed
open Distributed.TotalOrder (Entry Proc State Event WellFormed Holds react)

variable {ι : Type*}

/-- An `UPDATE_BALANCE` is not taken for an executed transaction, and is itself neither
executed nor taken for an outstanding one. -/
def Separate (_ : State ι Process Packet) (x : Incoming ι) : Prop :=
  x.packet.transaction.type = .updateBalance →
    x.packet.transaction.uniqueId ∉ ids x.proc.node.machine.replica.executedList ∧
    (x.proc.node.receive x.packet).machine.replica.executedList =
      x.proc.node.machine.replica.executedList ∧
    (x.proc.node.receive x.packet).outstanding = x.proc.node.outstanding

/-- No counter has gone through all of its values. -/
def Unwrapped (s : State ι Process Packet) : Prop :=
  ∀ i, ∀ p ∈ s.proc i, p.node.accepted.length < 2 ^ 32

/-- An `UPDATE_BALANCE` leaves the executed and the outstanding transactions as they are. -/
theorem receive_of_updateBalance (p : Process) {q : Packet}
    (hty : q.transaction.type = .updateBalance) :
    (p.receive q).machine.replica.executedList = p.machine.replica.executedList ∧
      (p.receive q).outstanding = p.outstanding := by
  have hm : ¬ q.transaction.isMonetary := fun hm ↦ Transaction.ne_updateBalance hm hty
  constructor
  · have hledger : (p.receive q).ledger = p.ledger.deliver q.transaction := Process.ledger_receive
    have hexecuted := congrArg Ledger.executed hledger
    rwa [Ledger.executed_deliver, if_neg hm] at hexecuted
  · refine AdvancedListener.outstandingCollection_of_not_consumes fun hc ↦ ?_
    rcases hc.type_eq with h | h
    · exact hm h
    · rw [hty] at h
      cases h

/-! ## Where messages come from -/

/-- An `UPDATE_BALANCE` is never multicast after a transaction with its id. -/
def Ahead (x y : ℕ × Packet) : Prop :=
  x.2.transaction.type ≠ .updateBalance → y.2.transaction.type = .updateBalance →
    x.2.transaction.uniqueId ≠ y.2.transaction.uniqueId

/-- What holds of a process and of what it sends: an `UPDATE_BALANCE` has an id of the
process, anything else has been accepted by it or delivered to it before. -/
structure SharedInv (D : Deployment ι) (i : ι) (_ : ℕ) (past : List (Entry ι Packet))
    (p : Process) (sent : List (ℕ × Packet)) : Prop where
  replicaName : p.machine.replicaName = D.replicaName i
  numbered : p.Numbered
  accepted_type : ∀ t ∈ p.accepted, t.type ≠ .updateBalance
  outstanding_subset : p.outstanding ⊆ p.accepted
  executed_subset : p.machine.replica.executedList ⊆ monetary (messages past)
  sent_cases : ∀ w q, (w, q) ∈ sent →
    q.transaction.type = .updateBalance ∧ Issued (D.replicaName i) q.transaction ∨
    q.transaction ∈ p.accepted ∨ q.transaction ∈ monetary (messages (past.take w))
  ahead : sent.Pairwise Ahead

theorem type_ne_of_mem_monetary {ts : List Transaction} {t : Transaction} (h : t ∈ monetary ts) :
    t.type ≠ .updateBalance :=
  Transaction.ne_updateBalance (mem_monetary.mp h).2

namespace SharedInv

variable {D : Deployment ι} {i k : ι} {joined w : ℕ} {past : List (Entry ι Packet)}
variable {p : Process} {sent : List (ℕ × Packet)} {q : Packet}

theorem fresh (D : Deployment ι) (i : ι) (past : List (Entry ι Packet)) :
    SharedInv D i past.length past (D.fresh i) [] where
  replicaName := rfl
  numbered := ⟨rfl, rfl⟩
  accepted_type _ ht := absurd ht List.not_mem_nil
  outstanding_subset := List.nil_subset _
  executed_subset := List.nil_subset _
  sent_cases _ _ hq := absurd hq List.not_mem_nil
  ahead := List.Pairwise.nil

/-- What was multicast before stays accounted for. -/
theorem sent_cases_mono (h : SharedInv D i joined past p sent) {accepted : List Transaction}
    (hacc : p.accepted ⊆ accepted) (more : List (Entry ι Packet)) (hq : (w, q) ∈ sent) :
    q.transaction.type = .updateBalance ∧ Issued (D.replicaName i) q.transaction ∨
    q.transaction ∈ accepted ∨
    q.transaction ∈ monetary (messages ((past ++ more).take w)) := by
  refine (h.sent_cases w q hq).imp_right (Or.imp (fun ht ↦ hacc ht) fun ht ↦ ?_)
  rw [List.take_append, messages_append, monetary_append]
  exact List.mem_append_left _ ht

/-- What is multicast in addition, none of it an `UPDATE_BALANCE`. -/
theorem ahead_append {batch : List (ℕ × Packet)} (h : sent.Pairwise Ahead)
    (hbatch : ∀ y ∈ batch, y.2.transaction.type ≠ .updateBalance) :
    (sent ++ batch).Pairwise Ahead := by
  refine List.pairwise_append.mpr ⟨h, ?_, fun x _ y hy _ hty ↦ absurd hty (hbatch y hy)⟩
  exact List.pairwise_of_forall_mem_list fun x _ y hy _ hty ↦ absurd hty (hbatch y hy)

/-- An `UPDATE_BALANCE` with an id that no transaction before it has, and what comes with it. -/
theorem ahead_concat {x : ℕ × Packet} {batch : List (ℕ × Packet)} (h : sent.Pairwise Ahead)
    (hx : ∀ y ∈ sent, y.2.transaction.type ≠ .updateBalance →
      y.2.transaction.uniqueId ≠ x.2.transaction.uniqueId)
    (hbatch : ∀ y ∈ batch, y.2.transaction.type ≠ .updateBalance) :
    (sent ++ x :: batch).Pairwise Ahead := by
  rw [List.append_cons]
  refine ahead_append (List.pairwise_append.mpr ⟨h, List.pairwise_singleton _ _, ?_⟩) hbatch
  intro y hy z hz hty _
  rw [List.mem_singleton.mp hz]
  exact hx y hy hty

/-- Local actions, `cleanHistory` included. -/
theorem act (h : SharedInv D i joined past p sent) (a : Action) :
    SharedInv D i joined past (p.act a).1
      (sent ++ TotalOrder.stamped past.length (p.act a).2) := by
  have hbatch : ∀ y ∈ TotalOrder.stamped past.length (p.act a).2,
      y.2.transaction ∈ p.accepted := by
    intro y hy
    exact Process.mem_accepted_of_mem_act h.outstanding_subset (TotalOrder.mem_stamped.mp hy).2
  refine
    { replicaName := Process.act_replicaName.trans h.replicaName
      numbered := h.numbered.act a
      accepted_type := ?_
      outstanding_subset := Process.outstanding_act_subset a h.outstanding_subset
      executed_subset := ?_
      sent_cases := ?_
      ahead := ahead_append h.ahead fun y hy ↦ h.accepted_type _ (hbatch y hy) }
  · rw [Process.accepted_act]
    exact List.forall_mem_append.mpr
      ⟨h.accepted_type, fun t ht ↦ (Process.accepts_of_mem_queued ht).ne_updateBalance⟩
  · rcases p.executedList_act a with hx | hx <;> rw [hx]
    · exact h.executed_subset
    · exact List.nil_subset _
  · intro w q hq
    rw [Process.accepted_act]
    rcases List.mem_append.mp hq with hq | hq
    · have hcases := h.sent_cases_mono (List.subset_append_left _ (p.queued a)) [] hq
      rwa [List.append_nil] at hcases
    · exact .inr (.inl (List.mem_append_left _ (hbatch _ hq)))

/-- A message. -/
theorem receive (h : SharedInv D i joined past p sent) (k : ι) (w : ℕ) (q : Packet) :
    SharedInv D i joined (past ++ [.message k w q]) (p.receive q) sent where
  replicaName := Process.receive_replicaName.trans h.replicaName
  numbered := h.numbered.receive
  accepted_type := h.accepted_type
  outstanding_subset := List.Subset.trans
    (AdvancedListener.outstandingCollection_subset p.machine q.transaction) h.outstanding_subset
  executed_subset := by
    intro t ht
    rw [messages_append, monetary_append, messages_message, List.mem_append]
    refine (Process.mem_executedList_receive ht).imp (fun ht ↦ h.executed_subset ht) ?_
    rintro ⟨rfl, hm⟩
    rw [monetary_singleton_of_isMonetary hm]
    exact List.mem_singleton_self _
  sent_cases _ _ hq := h.sent_cases_mono (List.Subset.refl _) _ hq
  ahead := h.ahead

/-- A membership: the balance goes before the history. -/
theorem view (h : SharedInv D i joined past p sent) (v : View ι)
    (hnew : ∀ x ∈ sent, x.2.transaction.type ≠ .updateBalance →
      x.2.transaction.uniqueId ≠ (AdvancedListener.updateBalance p.machine).uniqueId) :
    SharedInv D i joined (past ++ [.view v]) (p.view D.privateGroup v).1
      (sent ++ TotalOrder.stamped past.length (p.view D.privateGroup v).2) := by
  -- what is sent is the balance and, after it, executed transactions
  obtain ⟨history, hhistory, hsent⟩ : ∃ history, history ⊆ p.machine.replica.executedList ∧
      ((p.view D.privateGroup v).2 = [] ∨ (p.view D.privateGroup v).2 =
        p.wrap true (AdvancedListener.updateBalance p.machine :: history)) := by
    have hinit := p.view_isPrefix D.privateGroup v
    rw [Process.wrap, List.map_cons, List.prefix_cons_iff] at hinit
    rcases hinit with hnil | ⟨rest, hrest, hinit⟩
    · exact ⟨[], List.nil_subset _, .inl hnil⟩
    · obtain ⟨history, hhistory, rfl⟩ := List.prefix_map_iff.mp hinit
      exact ⟨history, hhistory.subset, .inr hrest⟩
  have hresend : ∀ w q, (w, q) ∈ TotalOrder.stamped past.length (p.wrap true history) →
      w = past.length ∧ q.transaction ∈ monetary (messages past) := by
    intro w q hq
    obtain ⟨rfl, hq'⟩ := TotalOrder.mem_stamped.mp hq
    obtain ⟨t, ht, rfl⟩ := List.mem_map.mp hq'
    exact ⟨rfl, h.executed_subset (hhistory ht)⟩
  refine
    { replicaName := (Process.view_replicaName _ _ _).trans h.replicaName
      numbered := h.numbered.view D.privateGroup v
      accepted_type := h.accepted_type
      outstanding_subset := by
        rw [Process.outstanding, Process.view_replica]
        exact h.outstanding_subset
      executed_subset := by
        rw [Process.view_replica, messages_append, messages_view, List.append_nil]
        exact h.executed_subset
      sent_cases := ?_
      ahead := ?_ }
  · intro w q hq
    rcases List.mem_append.mp hq with hq | hq
    · exact h.sent_cases_mono (List.Subset.refl _) _ hq
    · rcases hsent with hsent | hsent <;> rw [hsent] at hq
      · cases hq
      · rcases List.mem_cons.mp hq with heq | hq
        · obtain ⟨-, rfl⟩ := Prod.mk.inj heq
          exact .inl ⟨rfl, _, by rw [← h.replicaName]; rfl⟩
        · obtain ⟨rfl, ht⟩ := hresend w q hq
          rw [List.take_append_of_le_length (Nat.le_refl _), List.take_length]
          exact .inr (.inr ht)
  · rcases hsent with hsent | hsent <;> rw [hsent]
    · rw [TotalOrder.stamped_nil, List.append_nil]
      exact h.ahead
    · exact ahead_concat h.ahead hnew fun y hy ↦
        type_ne_of_mem_monetary (hresend y.1 y.2 hy).2

end SharedInv

/-! ## The causes of messages -/

section

variable [DecidableEq ι] {D : Deployment ι} {s s' : State ι Process Packet}
variable {i k k' : ι} {u u' w w' : ℕ} {q q' : Packet}

/-- The sender of a message, and how it came to send it: an `UPDATE_BALANCE`, something it
had accepted, or something ordered before. -/
theorem message_cases (h : WellFormed s ∧ Holds (SharedInv D) s)
    (hu : s.log[u]? = some (.message k w q)) : ∃ pk, s.proc k = some pk ∧
      (q.transaction.type = .updateBalance ∧ Issued (D.replicaName k) q.transaction ∨
      q.transaction ∈ pk.node.accepted ∨
      ∃ u' k' w' q', u' < u ∧ s.log[u']? = some (.message k' w' q') ∧
        q'.transaction = q.transaction ∧ q.transaction.type ≠ .updateBalance) := by
  obtain ⟨hw, pk, hpk, -, -⟩ := h.1.stamp_le hu
  refine ⟨pk, hpk, ?_⟩
  refine ((h.2 k pk hpk).sent_cases w q (TotalOrder.mem_sentBy_of_getElem? hu)).imp_right
    (Or.imp_right fun ht ↦ ?_)
  obtain ⟨u', k', w', q', hu', hq'⟩ := mem_messages.mp (mem_monetary.mp ht).1
  rw [State.past, List.take_take, List.getElem?_take] at hu'
  split at hu'
  · exact ⟨u', k', w', q', by omega, hu', hq', type_ne_of_mem_monetary ht⟩
  · cases hu'

/-- Every other message carries something that a replica has accepted. -/
theorem mem_accepted_of_mem_log (h : WellFormed s ∧ Holds (SharedInv D) s)
    (hu : s.log[u]? = some (.message k w q)) (hty : q.transaction.type ≠ .updateBalance) :
    ∃ j pj, s.proc j = some pj ∧ q.transaction ∈ pj.node.accepted := by
  induction u using Nat.strong_induction_on generalizing k w q with
  | _ u ih =>
      obtain ⟨pk, hpk, ⟨hup, -⟩ | hacc | ⟨u', k', w', q', hlt, hu', heq, -⟩⟩ := message_cases h hu
      · exact absurd hup hty
      · exact ⟨k, pk, hpk, hacc⟩
      · exact heq ▸ ih u' hlt hu' (by rwa [heq])

/-- An id stands for one transaction, while counters have not gone through their values. -/
theorem eq_of_uniqueId_eq (h : WellFormed s ∧ Holds (SharedInv D) s) (hc : Unwrapped s)
    (hu : s.log[u]? = some (.message k w q)) (hty : q.transaction.type ≠ .updateBalance)
    (hu' : s.log[u']? = some (.message k' w' q')) (hty' : q'.transaction.type ≠ .updateBalance)
    (hid : q.transaction.uniqueId = q'.transaction.uniqueId) : q.transaction = q'.transaction := by
  obtain ⟨j, p, hp, hacc⟩ := mem_accepted_of_mem_log h hu hty
  obtain ⟨j', p', hp', hacc'⟩ := mem_accepted_of_mem_log h hu' hty'
  have hI := h.2 j p hp
  have hI' := h.2 j' p' hp'
  have hissued := hI.numbered.issued hacc
  have hissued' := hI'.numbered.issued hacc'
  rw [hI.replicaName] at hissued
  rw [hI'.replicaName] at hissued'
  obtain rfl := D.replicaName_injective (hissued.name_eq hissued' hid)
  obtain rfl : p = p' := Option.some.inj (hp.symm.trans hp')
  exact List.inj_on_of_nodup_map (hI.numbered.nodup_ids (hc j p hp).le) hacc hacc' hid

/-- **Causality.**  What is ordered before an `UPDATE_BALANCE` has not got its id: not what
its sender had multicast, and not what others had copied from that. -/
theorem uniqueId_ne_of_lt (h : WellFormed s ∧ Holds (SharedInv D) s)
    (hu : s.log[u]? = some (.message k w q)) (hty : q.transaction.type ≠ .updateBalance)
    (hu' : s.log[u']? = some (.message k' w' q')) (hty' : q'.transaction.type = .updateBalance)
    (hlt : u < u') : q.transaction.uniqueId ≠ q'.transaction.uniqueId := by
  induction u using Nat.strong_induction_on generalizing k w q with
  | _ u ih =>
      obtain ⟨pk, hpk, ⟨hup, -⟩ | hacc | ⟨v, j, x, r, hvu, hv, heq, -⟩⟩ := message_cases h hu
      · exact absurd hup hty
      · -- sent by its issuer, who has sent the `UPDATE_BALANCE` too if the names agree
        have hI := h.2 k pk hpk
        obtain ⟨pk', hpk', ⟨-, hissued'⟩ | hacc' | ⟨-, -, -, -, -, -, -, hne⟩⟩ :=
          message_cases h hu'
        · intro hid
          have hissued := hI.numbered.issued hacc
          rw [hI.replicaName] at hissued
          obtain rfl := D.replicaName_injective (hissued.name_eq hissued' hid)
          exact TotalOrder.rel_of_pairwise_sentBy hI.ahead hlt hu hu' hty hty' hid
        · exact absurd hty' ((h.2 k' pk' hpk').accepted_type _ hacc')
        · exact absurd hty' hne
      · rw [← heq]
        exact ih v hvu hv (by rwa [heq]) (hvu.trans hlt)

/-! ## Runs -/

/-- With counters that have not gone through their values, the id of an `UPDATE_BALANCE` is
none that its sender has multicast before. -/
theorem uniqueId_ne_updateBalance (h : WellFormed s ∧ Holds (SharedInv D) s) (hc : Unwrapped s)
    {p : Proc Process Packet} (hp : s.proc i = some p) {x : ℕ × Packet} (hx : x ∈ s.sentBy i)
    (hty : x.2.transaction.type ≠ .updateBalance) :
    x.2.transaction.uniqueId ≠ (AdvancedListener.updateBalance p.node.machine).uniqueId := by
  have hI := h.2 i p hp
  obtain ⟨j, pj, hpj, hacc⟩ : ∃ j pj, s.proc j = some pj ∧
      x.2.transaction ∈ pj.node.accepted := by
    rcases hI.sent_cases x.1 x.2 hx with ⟨hup, -⟩ | hacc | ht
    · exact absurd hup hty
    · exact ⟨i, p, hp, hacc⟩
    · obtain ⟨u, k, w, q, hu, hq⟩ := mem_messages.mp (mem_monetary.mp ht).1
      rw [State.past, List.take_take, List.getElem?_take] at hu
      split at hu
      · exact hq ▸ mem_accepted_of_mem_log h hu (by rwa [hq])
      · cases hu
  intro hid
  have hnum := (h.2 j pj hpj).numbered
  have hmem : x.2.transaction.uniqueId ∈ ids pj.node.accepted := List.mem_map_of_mem hacc
  rw [hnum.ids_accepted, List.mem_map, (h.2 j pj hpj).replicaName] at hmem
  obtain ⟨n, hn, hmem⟩ := hmem
  have hown : (AdvancedListener.updateBalance p.node.machine).uniqueId =
      uniqueId (D.replicaName i) (.after p.node.accepted.length) := by
    rw [← hI.replicaName, ← hI.numbered.outstandingCounter_eq]
    rfl
  obtain ⟨hname, hnumber⟩ := uniqueId_inj.mp (hmem.trans (hid.trans hown))
  obtain rfl := D.replicaName_injective hname
  obtain rfl : pj = p := Option.some.inj (hpj.symm.trans hp)
  have hlt := hc j pj hp
  rw [List.mem_range] at hn
  have hlen := AtomicInteger.after_inj (by omega) hlt hnumber
  omega

theorem sharedInv_step {e : Event ι Action} (h : WellFormed s ∧ Holds (SharedInv D) s)
    (hc : Unwrapped s) (hs : D.system.step s e = some s') :
    WellFormed s' ∧ Holds (SharedInv D) s' := by
  refine TotalOrder.holds_step (C := fun s _ ↦ Unwrapped s) (SharedInv.fresh D) ?_ ?_ h hc hs
  · intro s i k p _ hwf hI hp
    have hp := TotalOrder.proc_of_member? hp
    exact hwf.length_past hp ▸ (hI i p hp).act k
  · intro s i p x hc hwf hI hp _
    have hp := TotalOrder.proc_of_member? hp
    cases x with
    | message k w q =>
        show SharedInv D _ _ _ (p.node.receive q) (s.sentBy i ++ [])
        rw [List.append_nil]
        exact (hI i p hp).receive k w q
    | view v =>
        exact hwf.length_past hp ▸ (hI i p hp).view v fun x hx hty ↦
          uniqueId_ne_updateBalance ⟨hwf, hI⟩ hc hp hx hty

theorem sharedInv_start (D : Deployment ι) : WellFormed D.start ∧ Holds (SharedInv D) D.start :=
  TotalOrder.holds_start (SharedInv.fresh D) []

theorem separate_of_sharedInv (h : WellFormed s ∧ Holds (SharedInv D) s) {x : Incoming ι}
    (hx : incoming s i = some x) : Separate s x := by
  intro hty
  obtain ⟨hp, hu⟩ := incoming_cases hx
  refine ⟨fun hid ↦ ?_, receive_of_updateBalance _ hty⟩
  obtain ⟨t, ht, hid⟩ := mem_ids.mp hid
  have ht := (h.2 i _ (TotalOrder.proc_of_member? hp)).executed_subset ht
  obtain ⟨u, k, w, q, hu', rfl⟩ := mem_messages.mp (mem_monetary.mp ht).1
  rw [State.past, List.getElem?_take] at hu'
  split at hu'
  · exact uniqueId_ne_of_lt h hu' (type_ne_of_mem_monetary ht) hu hty ‹_› hid
  · cases hu'

/-- **Shared ids.**  As long as every replica has accepted fewer than `2 ^ 32` transactions,
no `UPDATE_BALANCE` is ever taken for an executed transaction, and none makes anybody take a
transaction for an executed one or lose it from its outstanding collection.  Processes join,
leave and repeat messages in any way, and `cleanHistory` is allowed. -/
theorem separate_of_unwrapped (D : Deployment ι) {es : List (Event ι Action)}
    (hc : D.system.Along (fun s _ ↦ Unwrapped s) D.start es) :
    D.system.Along (OnDelivery Separate) D.start es := by
  refine Machine.along_of_invariant (fun s e s' h hc hs ↦ sharedInv_step h hc hs)
    (fun s e h _ ↦ ?_) (sharedInv_start D) hc
  cases e with
  | deliver i => exact fun x hx ↦ separate_of_sharedInv h hx
  | _ => trivial

end

/-! ## Beyond `2 ^ 32` transactions -/

instance [Fintype ι] : DecidablePred (Unwrapped (ι := ι)) := fun s ↦
  inferInstanceAs (Decidable (∀ i, ∀ p ∈ s.proc i, p.node.accepted.length < 2 ^ 32))

/-- A replica that expects to be alone, and another one that may join it. -/
def sharing : Deployment (Fin 2) := .numbered fun _ ↦ 1

/-- The first replica executes a deposit on its own. -/
def firstDeposit : List (Event (Fin 2) Action) :=
  [.join 0, .deliver 0, .act 0 (.command "deposit 1"), .act 0 (.tick 1), .order 0, .deliver 0]

/-- The second replica joins, and then the first accepts a deposit with the id under which it
has sent its balance. -/
def nextDeposit : List (Event (Fin 2) Action) :=
  [.join 1, .deliver 0, .act 0 (.command "deposit 1"), .act 0 (.tick 1), .order 0, .order 0,
    .order 0, .deliver 0, .deliver 0, .deliver 0, .deliver 1, .deliver 1, .deliver 1, .deliver 1]

theorem separate_of_unwrapped_nextDeposit : sharing.system.Along (OnDelivery Separate)
    sharing.start (firstDeposit ++ nextDeposit) :=
  separate_of_unwrapped sharing (by decide +kernel)

open Process (deposited syncedBalance counted)

/-- The first replica, alone in its group, with one executed deposit, `n` accepted transactions and
nothing on its way. -/
structure Counted (s : State (Fin 2) Process Packet) (p : Proc Process Packet) (n : ℕ) :
    Prop where
  members : s.members = [0]
  proc_zero : s.proc 0 = some p
  proc_one : s.proc 1 = none
  position : p.position = s.log.length
  outbox : p.outbox = []
  privateGroup : p.node.machine.privateGroup = "#Rep1"
  reads : p.node.Reads "Rep1" (counted n) [deposited "Rep1" 0 1] n

/-- A synced balance is queued, multicast, ordered and delivered. -/
def syncedTurn : List (Event (Fin 2) Action) :=
  [.act 0 (.command "getSyncedBalance"), .act 0 (.tick 1), .order 0, .deliver 0]

namespace Counted

variable {s : State (Fin 2) Process Packet} {p : Proc Process Packet} {n : ℕ}

theorem member? (h : Counted s p n) : s.member? 0 = some p :=
  TotalOrder.member?_eq_some.mpr ⟨by simp [h.members], h.proc_zero⟩

theorem first : ∃ s p, sharing.system.run sharing.start firstDeposit = some s ∧ Counted s p 1 := by
  have h : (sharing.system.run sharing.start firstDeposit).any (fun s ↦
      s.members = [0] ∧ s.proc 1 = none ∧ (s.proc 0).any fun p ↦
        p.position = s.log.length ∧ p.outbox = [] ∧ p.node.machine.privateGroup = "#Rep1" ∧
        p.node.machine.main = .reading ∧ p.node.machine.replicaName = "Rep1" ∧
        p.node.machine.replica = counted 1 ∧
        monetary p.node.accepted = [deposited "Rep1" 0 1] ∧ p.node.accepted.length = 1) := by
    decide +kernel
  obtain ⟨s, hs, h⟩ := (Option.any_eq_true _ _).mp h
  obtain ⟨hmembers, hone, h⟩ := of_decide_eq_true h
  obtain ⟨p, hp, h⟩ := (Option.any_eq_true _ _).mp h
  obtain ⟨hposition, houtbox, hprivate, hmain, hname, hreplica, hmonetary, hlen⟩ :=
    of_decide_eq_true h
  exact ⟨s, p, hs, hmembers, hp, hone, hposition, houtbox, hprivate,
    hmain, hname, hreplica, hmonetary, hlen⟩

/-- A turn advances the counter and leaves everything else as it was. -/
theorem syncedTurn (h : Counted s p n) (hn : 0 < n) (hlt : n < 2 ^ 32) : ∃ s' p',
    sharing.system.run s ReplicatedBank.syncedTurn = some s' ∧ Counted s' p' (n + 1) := by
  -- the synced balance is queued
  have hqueued := h.reads.getSyncedBalance rfl
  let p₁ : Proc Process Packet := p.advance (p.node.act (.command "getSyncedBalance"))
  have hp₁ : (s.setProc 0 p₁).member? 0 = some p₁ :=
    TotalOrder.member?_eq_some.mpr ⟨by simp [h.members], TotalOrder.setProc_proc_self⟩
  have hout₁ : p₁.outbox = [] := by
    simp [p₁, Proc.advance, TotalOrder.stamped, h.outbox, Process.act]
  -- it is multicast
  obtain ⟨hticked, hsent⟩ := hqueued.tick 1
  let p₂ : Proc Process Packet := p₁.advance (p₁.node.act (.tick 1))
  have hp₂ : ((s.setProc 0 p₁).setProc 0 p₂).member? 0 = some p₂ :=
    TotalOrder.member?_eq_some.mpr ⟨by simp [h.members], TotalOrder.setProc_proc_self⟩
  obtain ⟨q, hq, hpacket⟩ : ∃ q, (p₁.node.act (.tick 1)).2 = [q] ∧
      q.transaction = syncedBalance "Rep1" (counted n) :=
    List.map_eq_singleton_iff.mp hsent
  have hout₂ : p₂.outbox = [(p.position, q)] := by
    change p₁.outbox ++ TotalOrder.stamped p.position (p₁.node.act (.tick 1)).2 = _
    rw [hout₁, hq]
    rfl
  -- it is ordered and delivered
  let p₃ : Proc Process Packet := { p₂ with outbox := [] }
  let s₃ : State (Fin 2) Process Packet :=
    { ((s.setProc 0 p₁).setProc 0 p₂).setProc 0 p₃ with
      log := s.log ++ [.message 0 p.position q] }
  have hp₃ : s₃.member? 0 = some p₃ :=
    TotalOrder.member?_eq_some.mpr ⟨by simp [s₃, h.members], by simp [s₃, State.setProc]⟩
  have hx₃ : s₃.log[p₃.position]? = some (.message 0 p.position q) := by
    change (s.log ++ [_])[p.position]? = _
    rw [h.position, List.getElem?_concat_length]
  have hreads := hticked.receive_syncedBalance (q := q) (by rw [hpacket]; rfl)
    (by rw [hpacket]; exact Process.uniqueId_notMem_counted hn hlt)
  rw [hpacket, Process.removeOutstanding_counted] at hreads
  let p₄ : Proc Process Packet :=
    { p₃.advance (react (bank sharing.privateGroup) p₃.node (.message 0 p.position q)) with
      position := p₃.position + 1 }
  refine ⟨s₃.setProc 0 p₄, p₄, Machine.run_cons.mpr ⟨_, TotalOrder.step_act h.member?,
    Machine.run_cons.mpr ⟨_, TotalOrder.step_act hp₁, Machine.run_cons.mpr ⟨s₃,
      TotalOrder.step_order hp₂ hout₂, Machine.run_cons.mpr ⟨_,
        TotalOrder.step_deliver hp₃ hx₃, rfl⟩⟩⟩⟩, ?_⟩
  exact
    { members := h.members
      proc_zero := TotalOrder.setProc_proc_self
      proc_one := by simp [s₃, State.setProc, h.proc_one]
      position := by
        change p.position + 1 = (s.log ++ [_]).length
        rw [h.position, List.length_append, List.length_singleton]
      outbox := rfl
      privateGroup :=
        (AdvancedListener.sameProcess_regularMessageReceived _ _).privateGroup.trans
          ((Process.sameSetting_act _ _).privateGroup.trans
            ((Process.sameSetting_act _ _).privateGroup.trans h.privateGroup))
      reads := hreads }

theorem syncedTurns (h : Counted s p n) (hn : 0 < n) (k : ℕ) (hk : n + k ≤ 2 ^ 32) :
    ∃ s' p', sharing.system.run s (List.replicate k ReplicatedBank.syncedTurn).flatten = some s' ∧
      Counted s' p' (n + k) := by
  induction k generalizing s p n with
  | zero => exact ⟨s, p, rfl, h⟩
  | succ k ih =>
      obtain ⟨s₁, p₁, hs₁, h₁⟩ := h.syncedTurn hn (by omega)
      obtain ⟨s₂, p₂, hs₂, h₂⟩ := ih h₁ (by omega) (by omega)
      refine ⟨s₂, p₂, ?_, ?_⟩
      · rw [List.replicate_succ, List.flatten_cons]
        exact Machine.run_append.mpr ⟨s₁, hs₁, hs₂⟩
      · rwa [show n + (k + 1) = n + 1 + k by omega]

/-- The second replica joins when the counter is back at `0`: the balance that is sent to it
has the id of the executed deposit. -/
theorem last (h : Counted s p (2 ^ 32)) : ∃ s' x,
    sharing.system.run s [.join 1, .deliver 0, .order 0] = some s' ∧ incoming s' 0 = some x ∧
      x.packet.transaction.type = .updateBalance ∧
      x.packet.transaction.uniqueId ∈ ids x.proc.node.machine.replica.executedList ∧
      x.proc.node.outstanding = [] ∧
      x.proc.node.machine.replica.executedList = [deposited "Rep1" 0 1] := by
  -- the joining is delivered
  have hp₁ : (s.joined 1 (sharing.fresh 1)).member? 0 = some p :=
    TotalOrder.member?_eq_some.mpr ⟨by simp [State.joined, h.members],
      by simp [State.joined, h.proc_zero]⟩
  have hx₁ : (s.joined 1 (sharing.fresh 1)).log[p.position]? =
      some (.view ⟨.join, 1, [0, 1]⟩) := by
    simp [State.joined, h.position, h.members]
  -- the first replica answers it
  obtain ⟨rest, hsent⟩ : ∃ rest,
      (p.node.view sharing.privateGroup ⟨.join, 1, [0, 1]⟩).2 = p.node.answer :: rest := by
    rw [Process.view_sent, AdvancedListener.membershipMessageReceived_sent, if_pos]
    · exact ⟨_, rfl⟩
    · rw [h.privateGroup]
      decide +kernel
  let p₂ : Proc Process Packet :=
    { p.advance (react (bank sharing.privateGroup) p.node (.view ⟨.join, 1, [0, 1]⟩)) with
      position := p.position + 1 }
  have hout : p₂.outbox = (p.position, p.node.answer) ::
      TotalOrder.stamped p.position rest := by
    show p.outbox ++ TotalOrder.stamped p.position
      (p.node.view sharing.privateGroup ⟨.join, 1, [0, 1]⟩).2 = _
    rw [h.outbox, hsent]
    rfl
  have hp₂ : ((s.joined 1 (sharing.fresh 1)).setProc 0 p₂).member? 0 = some p₂ :=
    TotalOrder.member?_eq_some.mpr ⟨by simp [State.joined, h.members], TotalOrder.setProc_proc_self⟩
  -- and its answer comes back to it
  have hreplica : p₂.node.machine.replica = counted (2 ^ 32) :=
    (Process.view_replica sharing.privateGroup p.node ⟨.join, 1, [0, 1]⟩).trans h.reads.replica
  refine ⟨_, ⟨{ p₂ with outbox := TotalOrder.stamped p.position rest }, 0, p.position,
    p.node.answer⟩, Machine.run_cons.mpr ⟨_, TotalOrder.step_join h.proc_one,
      Machine.run_cons.mpr ⟨_, TotalOrder.step_deliver hp₁ hx₁,
        Machine.run_cons.mpr ⟨_, TotalOrder.step_order hp₂ hout, rfl⟩⟩⟩, ?_, rfl, ?_,
    congrArg Client.outstandingCollection hreplica, congrArg Client.executedList hreplica⟩
  · refine incoming_eq_some (TotalOrder.member?_eq_some.mpr ⟨?_, ?_⟩) ?_
    · simp [State.joined, h.members]
    · simp [State.setProc]
    · simp [State.joined, p₂, h.position]
  · have hid : (AdvancedListener.updateBalance p.node.machine).uniqueId = uniqueId "Rep1" 0 := by
      rw [AdvancedListener.updateBalance, ReplicatedStateMachine.nextUniqueId,
        h.reads.replicaName, h.reads.replica, counted, AtomicInteger.after_two_pow]
    simp only [hreplica, counted]
    exact mem_ids.mpr ⟨_, List.mem_singleton_self _, hid.symm⟩

end Counted

/-- A deposit is executed, `k` synced balances come and go one after the other, and the second
replica joins. -/
def turnsThenJoin (k : ℕ) : List (Event (Fin 2) Action) :=
  firstDeposit ++ (List.replicate k syncedTurn).flatten ++ [.join 1, .deliver 0, .order 0]

/-- After a deposit and `2 ^ 32 - 1` synced balances the `UPDATE_BALANCE` for the second replica
has the id of the deposit, and the filter stops it.  Nothing is outstanding then, and the deposit
is all that was executed. -/
theorem not_separate_turnsThenJoin :
    ∃ s x, sharing.system.run sharing.start (turnsThenJoin (2 ^ 32 - 1)) = some s ∧
      incoming s 0 = some x ∧ x.proc.node.outstanding = [] ∧
      x.proc.node.machine.replica.executedList = [deposited "Rep1" 0 1] ∧ ¬ Separate s x := by
  obtain ⟨s₁, p₁, hs₁, h₁⟩ := Counted.first
  obtain ⟨s₂, p₂, hs₂, h₂⟩ := h₁.syncedTurns (by omega) (2 ^ 32 - 1) (by omega)
  rw [show 1 + (2 ^ 32 - 1) = 2 ^ 32 by omega] at h₂
  obtain ⟨s₃, x, hs₃, hx, hty, hid, hout, hexecuted⟩ := h₂.last
  exact ⟨s₃, x, Machine.run_append.mpr ⟨s₂, Machine.run_append.mpr ⟨s₁, hs₁, hs₂⟩, hs₃⟩, hx,
    hout, hexecuted, fun hc ↦ (hc hty).1 hid⟩

end ReplicatedBank
