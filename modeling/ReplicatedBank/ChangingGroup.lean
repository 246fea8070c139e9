import ReplicatedBank.Distributed.TotalOrder
import ReplicatedBank.Process

/-!
# A changing group over totally ordered multicast

Replicas join, leave and are disconnected, and everything is delivered in one order: more
than `setFifo` asks for, and all that a transport could give.  A process that joins has just
been started, so its ledger is what the messages since its joining have made of it
(`ledger_eq_foldl`).

The properties proved of such runs are about what a process does with its next message
(`Incoming`), given what it has been delivered and what the sender knew when sending.
-/

namespace ReplicatedBank

open Distributed
open Distributed.TotalOrder (Entry Proc State Event WellFormed Holds react)

/-- The processes of a system and how they are started. -/
structure Deployment (ι : Type*) where
  replicaName : ι → String
  privateGroup : ι → String
  numberOfReplicas : ι → ℤ
  replicaName_injective : Function.Injective replicaName
  privateGroup_injective : Function.Injective privateGroup

namespace Deployment

variable {ι : Type*} [DecidableEq ι] (D : Deployment ι)

omit [DecidableEq ι] in
/-- A process when it joins. -/
def fresh (i : ι) : Process := .new (D.replicaName i) (D.privateGroup i) (D.numberOfReplicas i)

/-- The system as a machine. -/
def system : Machine (State ι Process Packet) (Event ι Action) :=
  TotalOrder.machine (bank D.privateGroup) D.fresh

/-- The empty group. -/
def start : State ι Process Packet := TotalOrder.start [] D.fresh

end Deployment

/-- Processes `Rep1`, `Rep2` and so on. -/
def Deployment.numbered {n : ℕ} (numberOfReplicas : Fin n → ℤ) : Deployment (Fin n) where
  replicaName i := "Rep" ++ (i + 1 : ℕ).repr
  privateGroup i := "#Rep" ++ (i + 1 : ℕ).repr
  numberOfReplicas := numberOfReplicas
  replicaName_injective i j h := by
    have h : (i + 1 : ℕ) = j + 1 := Nat.repr_injective (String.append_right_inj _ |>.mp h)
    exact Fin.ext (Nat.succ.inj h)
  privateGroup_injective i j h := by
    have h : (i + 1 : ℕ) = j + 1 := Nat.repr_injective (String.append_right_inj _ |>.mp h)
    exact Fin.ext (Nat.succ.inj h)

/-- The transactions in a piece of the log. -/
def messages {ι : Type*} (entries : List (Entry ι Packet)) : List Transaction :=
  transactions (entries.filterMap Entry.message?)

section

variable {ι : Type*}

@[simp] theorem messages_nil : messages ([] : List (Entry ι Packet)) = [] := rfl

@[simp] theorem messages_append (xs ys : List (Entry ι Packet)) :
    messages (xs ++ ys) = messages xs ++ messages ys := by
  simp [messages]

@[simp] theorem messages_message (i : ι) (w : ℕ) (q : Packet) :
    messages [.message i w q] = [q.transaction] := rfl

@[simp] theorem messages_view (v : View ι) : messages [.view v] = [] := rfl

theorem mem_messages {entries : List (Entry ι Packet)} {t : Transaction} :
    t ∈ messages entries ↔
      ∃ (u : ℕ) (k : ι) (w : ℕ) (q : Packet), entries[u]? = some (.message k w q) ∧
        q.transaction = t := by
  simp only [messages, transactions, List.mem_map, List.mem_filterMap]
  constructor
  · rintro ⟨q, ⟨x, hx, hq⟩, rfl⟩
    obtain ⟨u, hu⟩ := List.getElem?_of_mem hx
    cases x with
    | message k w q' =>
        obtain rfl := Option.some.inj hq
        exact ⟨u, k, w, q', hu, rfl⟩
    | view v => cases hq
  · rintro ⟨u, k, w, q, hu, rfl⟩
    exact ⟨q, ⟨_, List.mem_of_getElem? hu, rfl⟩, rfl⟩

/-- Whether an event is a `cleanHistory` command. -/
def Clears : Event ι Action → Prop
  | .act _ k => k.isCleanHistory
  | _ => False

instance : DecidablePred (Clears (ι := ι))
  | .act _ k => inferInstanceAs (Decidable (k.isCleanHistory = true))
  | .join _ | .leave _ | .disconnect _ | .order _ | .deliver _ => instDecidableFalse

/-- A message about to be delivered to a process. -/
structure Incoming (ι : Type*) where
  proc : Proc Process Packet
  sender : ι
  /-- The position of the sender when it sent the message. -/
  stamp : ℕ
  packet : Packet

variable [DecidableEq ι]

/-- The message that a member delivers next, if its next entry is a message. -/
def incoming (s : State ι Process Packet) (i : ι) : Option (Incoming ι) :=
  (s.member? i).bind fun p ↦ s.log[p.position]?.bind fun
    | .message k w q => some ⟨p, k, w, q⟩
    | .view _ => none

/-- A condition on the message that a step delivers. -/
def OnDelivery (C : State ι Process Packet → Incoming ι → Prop) (s : State ι Process Packet) :
    Event ι Action → Prop
  | .deliver i => ∀ x ∈ incoming s i, C s x
  | _ => True

instance {C : State ι Process Packet → Incoming ι → Prop} [∀ s x, Decidable (C s x)]
    (s : State ι Process Packet) : DecidablePred (OnDelivery C s)
  | .deliver i => inferInstanceAs (Decidable (∀ x ∈ incoming s i, C s x))
  | .act _ _ | .join _ | .leave _ | .disconnect _ | .order _ => instDecidableTrue

variable {s : State ι Process Packet} {i k : ι} {p : Proc Process Packet} {w : ℕ} {q : Packet}

theorem incoming_eq_some (hp : s.member? i = some p)
    (hx : s.log[p.position]? = some (.message k w q)) : incoming s i = some ⟨p, k, w, q⟩ := by
  simp [incoming, hp, hx]

theorem incoming_cases {x : Incoming ι} (h : incoming s i = some x) :
    s.member? i = some x.proc ∧
      s.log[x.proc.position]? = some (.message x.sender x.stamp x.packet) := by
  obtain ⟨p, hp, h⟩ := Option.bind_eq_some_iff.mp h
  obtain ⟨y, hy, h⟩ := Option.bind_eq_some_iff.mp h
  cases y with
  | message k w q =>
      obtain rfl := Option.some.inj h
      exact ⟨hp, hy⟩
  | view v => cases h

theorem OnDelivery.of_message {C : State ι Process Packet → Incoming ι → Prop}
    (h : OnDelivery C s (.deliver i)) (hp : s.member? i = some p)
    (hx : s.log[p.position]? = some (.message k w q)) : C s ⟨p, k, w, q⟩ :=
  h _ (incoming_eq_some hp hx)

end

/-! ## The ledgers -/

section

variable {ι : Type*} [DecidableEq ι] {D : Deployment ι} {s s' : State ι Process Packet}
variable {es : List (Event ι Action)} {i : ι} {p : Proc Process Packet}

/-- The ledger of a process is what the messages since its joining have made of it. -/
def LedgerInv (_ : ι) (joined : ℕ) (past : List (Entry ι Packet)) (p : Process)
    (_ : List (ℕ × Packet)) : Prop :=
  p.ledger = (messages (past.drop joined)).foldl Ledger.deliver .empty

omit [DecidableEq ι] in
/-- What an entry does to a ledger. -/
theorem ledger_react (privateGroup : ι → String) (p : Process) (x : Entry ι Packet) :
    (react (bank privateGroup) p x).1.ledger = (messages [x]).foldl Ledger.deliver p.ledger := by
  cases x with
  | message k w q => exact Process.ledger_receive
  | view v => exact Process.ledger_view privateGroup p v

omit [DecidableEq ι] in
/-- Delivering an entry keeps the invariant. -/
theorem LedgerInv.react {past : List (Entry ι Packet)} {joined : ℕ} {p : Process}
    {sent sent' : List (ℕ × Packet)} (h : LedgerInv i joined past p sent)
    (hle : joined ≤ past.length) (privateGroup : ι → String) (x : Entry ι Packet) :
    LedgerInv i joined (past ++ [x]) (react (bank privateGroup) p x).1 sent' := by
  have hledger : p.ledger = _ := h
  rw [LedgerInv, ledger_react, hledger, List.drop_append_of_le_length hle, messages_append,
    List.foldl_append]

theorem ledgerInv_step {e : Event ι Action} (h : WellFormed s ∧ Holds LedgerInv s)
    (he : ¬ Clears e) (hs : D.system.step s e = some s') : WellFormed s' ∧ Holds LedgerInv s' := by
  refine TotalOrder.holds_step (C := fun _ e ↦ ¬ Clears e) ?_ ?_ ?_ h he hs
  · intro i past
    simp [LedgerInv, Deployment.fresh, Process.ledger_new]
  · intro s i k p hk _ hI hp
    exact (Process.ledger_act hk).trans (hI i p (TotalOrder.proc_of_member? hp))
  · intro s i p x _ hwf hI hp hx
    have hp := TotalOrder.proc_of_member? hp
    exact (hI i p hp).react (hwf.joined_le_length_past hp) D.privateGroup x

theorem ledgerInv_start (D : Deployment ι) : WellFormed D.start ∧ Holds LedgerInv D.start :=
  TotalOrder.holds_start (fun i past ↦ by simp [LedgerInv, Deployment.fresh, Process.ledger_new]) []

end

end ReplicatedBank
