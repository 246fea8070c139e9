import ReplicatedBank.ChangingGroup

/-!
# Replaying the history to those who know it

What members send for a process that joins reaches all members.  An `UPDATE_BALANCE` does
nothing to a replica that has installed a balance, and a transaction that is sent again
does nothing to a replica that has executed it.  But a replica that was given its balance
without the history behind it has not executed the transactions of that history, and the
duplicate filter lets them through when the group outgrows `numberOfReplicas` later.
-/

namespace ReplicatedBank

open Distributed
open Distributed.TotalOrder (Entry Proc State Event WellFormed Holds)

variable {ι : Type*} [DecidableEq ι] {D : Deployment ι} {s : State ι Process Packet}
variable {es : List (Event ι Action)} {x : Incoming ι}

/-- State-transfer traffic that reaches an initialized replica leaves its balance and its
executed transactions alone. -/
def Undisturbed (_ : State ι Process Packet) (x : Incoming ι) : Prop :=
  x.packet.stateTransfer → x.proc.node.machine.alreadyInitializedBalance →
    (x.proc.node.receive x.packet).machine.replica.balance =
      x.proc.node.machine.replica.balance ∧
    (x.proc.node.receive x.packet).machine.replica.executedList =
      x.proc.node.machine.replica.executedList

/-- A `DEPOSIT` or `INTEREST` that is sent again on a joining and reaches an initialized
replica has been delivered there before. -/
def Known (s : State ι Process Packet) (x : Incoming ι) : Prop :=
  x.packet.stateTransfer → x.proc.node.machine.alreadyInitializedBalance →
    x.packet.transaction.isMonetary →
    x.packet.transaction.uniqueId ∈ ids (monetary (messages (s.delivered x.proc)))

/-- A replica is undisturbed by what it knows, and by nothing else. -/
theorem undisturbed_iff_known (h : Holds LedgerInv s) {i : ι} (hx : incoming s i = some x) :
    Undisturbed s x ↔ Known s x := by
  have hledger : x.proc.node.ledger = _ := h i _ (TotalOrder.proc_of_member? (incoming_cases hx).1)
  have hids : x.packet.transaction.uniqueId ∈ ids x.proc.node.ledger.executed ↔
      x.packet.transaction.uniqueId ∈ ids (monetary (messages (s.delivered x.proc))) := by
    rw [hledger]
    exact Ledger.mem_ids_executed_foldl rfl _ _
  have hreceive : (x.proc.node.receive x.packet).ledger = _ := Process.ledger_receive
  have hbalance := congrArg Ledger.balance hreceive
  have hexecuted := congrArg Ledger.executed hreceive
  refine forall_congr' fun _ ↦ forall_congr' fun hinit ↦ ?_
  rw [← hids]
  rcases x.proc.node.ledger.deliver_cases x.packet.transaction with
    ⟨hexec, hd⟩ | ⟨hinst, -⟩ | ⟨hexec, -, hd⟩
  · rw [hd] at hexecuted
    refine ⟨fun hsame _ ↦ ?_, fun hknown ↦ absurd (hknown hexec.isMonetary) hexec.fresh⟩
    have hlonger : x.proc.node.ledger.executed ++ [x.packet.transaction] =
        x.proc.node.ledger.executed := hexecuted.symm.trans hsame.2
    simp at hlonger
  · exact absurd (hinst.uninitialized.symm.trans hinit) (by simp)
  · rw [hd] at hbalance hexecuted
    exact ⟨fun _ hm ↦ by_contra fun hfresh ↦ hexec ⟨hm, hfresh⟩,
      fun _ ↦ ⟨hbalance, hexecuted⟩⟩

/-- **State transfer and the members.**  In a run without `cleanHistory`, initialized
replicas are never disturbed by state transfer exactly if each of them has been delivered
before whatever is sent again. -/
theorem undisturbed_iff (D : Deployment ι) (hk : ∀ e ∈ es, ¬ Clears e) :
    D.system.Along (OnDelivery Undisturbed) D.start es ↔
      D.system.Along (OnDelivery Known) D.start es := by
  have hiff : ∀ (s : State ι Process Packet) e, WellFormed s ∧ Holds LedgerInv s →
      (OnDelivery Undisturbed s e ↔ OnDelivery Known s e) := by
    intro s e h
    cases e with
    | deliver i => exact forall₂_congr fun x hx ↦ undisturbed_iff_known h.2 hx
    | _ => exact Iff.rfl
  have hclears := Machine.along_of_forall_mem (M := D.system) hk D.start
  constructor <;> intro hc
  · exact Machine.along_of_invariant
      (fun s e s' h hc hs ↦ ledgerInv_step h hc.1 hs) (fun s e h hc ↦ (hiff s e h).mp hc.2)
      (ledgerInv_start D) (Machine.along_and.mpr ⟨hclears, hc⟩)
  · exact Machine.along_of_invariant
      (fun s e s' h hc hs ↦ ledgerInv_step h hc.1 hs) (fun s e h hc ↦ (hiff s e h).mpr hc.2)
      (ledgerInv_start D) (Machine.along_and.mpr ⟨hclears, hc⟩)

/-! ## A replica that was given its balance only -/

/-- Four processes, of which the first three expect a group of two. -/
def four : Deployment (Fin 4) := .numbered [2, 2, 2, 3].get

/-- Two replicas share a deposit; a third one replaces the second and is given the balance. -/
def replacement : List (Event (Fin 4) Action) :=
  [.join 0, .deliver 0, .join 1, .deliver 0, .deliver 1, .order 0, .deliver 0, .deliver 1,
    .act 0 (.command "deposit 100"), .act 0 (.tick 1), .order 0, .deliver 0, .deliver 1,
    .leave 1, .join 2, .deliver 0, .deliver 0, .deliver 2, .order 0, .deliver 0, .deliver 2]

theorem undisturbed_iff_replacement :
    four.system.Along (OnDelivery Undisturbed) four.start replacement ↔
      four.system.Along (OnDelivery Known) four.start replacement :=
  undisturbed_iff four (by decide +kernel)

/-- A fourth replica joins and makes the first one send the deposit again. -/
def fourthJoins : List (Event (Fin 4) Action) :=
  [.join 3, .deliver 0, .order 0, .order 0, .deliver 2, .deliver 2]

/-- The third replica has installed a balance of 100, and the deposit in it is executed once
more when it is sent to the fourth. -/
theorem disturbed_replacement : (∀ e ∈ replacement ++ fourthJoins, ¬ Clears e) ∧
    ∃ s x, four.system.run four.start (replacement ++ fourthJoins) = some s ∧
      incoming s 2 = some x ∧ x.packet.stateTransfer ∧
      x.proc.node.machine.alreadyInitializedBalance ∧
      x.proc.node.machine.replica.balance = 100 ∧
      (x.proc.node.receive x.packet).machine.replica.balance = 200 := by
  refine ⟨by decide +kernel, ?_⟩
  have h : (four.system.run four.start (replacement ++ fourthJoins)).any (fun s ↦
      (incoming s 2).any fun x ↦ x.packet.stateTransfer ∧
        x.proc.node.machine.alreadyInitializedBalance ∧
        x.proc.node.machine.replica.balance = 100 ∧
        (x.proc.node.receive x.packet).machine.replica.balance = 200) := by decide +kernel
  obtain ⟨s, hs, h⟩ := (Option.any_eq_true _ _).mp h
  obtain ⟨x, hx, h⟩ := (Option.any_eq_true _ _).mp h
  exact ⟨s, x, hs, hx, of_decide_eq_true h⟩

end ReplicatedBank
