import ReplicatedBank.ChangingGroup

/-!
# Accounting for a balance

Apart from the one assignment of an `UPDATE_BALANCE`, a balance changes by executing
transactions, and every executed transaction is recorded.  So the balance should be the
effects of the executed transactions on a base: the balance that was installed, or 0.
The assignment overwrites the effects of what has been executed before, and
`accounted_iff` says that this is all that can go wrong.
-/

namespace ReplicatedBank

open Distributed
open Distributed.TotalOrder (Entry Proc State Event WellFormed Holds react)

/-- The balance that a sequence of messages installs, or 0. -/
def base (ts : List Transaction) : ℚ := ((installed ts).map Transaction.balance).getD 0

theorem base_concat (ts : List Transaction) (t : Transaction) :
    base (ts ++ [t]) =
      if (ts.foldl Ledger.deliver .empty).Installs t then t.balance else base ts := by
  rw [base, Ledger.installed_concat_eq]
  split <;> rfl

/-- Executing transactions keeps a balance accounted for; installing one does if what has
been executed makes no difference to it. -/
theorem balance_foldl_concat {ts : List Transaction} {t : Transaction}
    (h : (ts.foldl Ledger.deliver .empty).balance =
      effects (ts.foldl Ledger.deliver .empty).executed (base ts))
    (ht : (ts.foldl Ledger.deliver .empty).Installs t →
      effects (ts.foldl Ledger.deliver .empty).executed t.balance = t.balance) :
    ((ts ++ [t]).foldl Ledger.deliver .empty).balance =
      effects ((ts ++ [t]).foldl Ledger.deliver .empty).executed (base (ts ++ [t])) := by
  rw [base_concat, List.foldl_append, List.foldl_cons, List.foldl_nil]
  rcases Ledger.deliver_cases (ts.foldl .deliver .empty) t with
    ⟨hx, hd⟩ | ⟨hi, hd⟩ | ⟨-, hi, hd⟩
  · rw [if_neg fun hi ↦ hi.not_isMonetary hx.isMonetary, hd, effects_concat, h]
  · rw [if_pos hi, hd]
    exact (ht hi).symm
  · rw [if_neg hi, hd, h]

section

variable {ι : Type*} [DecidableEq ι] {D : Deployment ι} {s s' : State ι Process Packet}
variable {es : List (Event ι Action)}

/-- Every balance is the effects of the executed transactions on the base. -/
def Accounted (s : State ι Process Packet) : Prop :=
  ∀ i p, s.proc i = some p → p.node.machine.replica.balance =
    effects p.node.machine.replica.executedList (base (messages (s.delivered p)))

/-- If the message is installed, the transactions executed so far make no difference to the
balance it carries. -/
def InstallsHarmlessly (_ : State ι Process Packet) (x : Incoming ι) : Prop :=
  x.proc.node.ledger.Installs x.packet.transaction →
    effects x.proc.node.ledger.executed x.packet.transaction.balance = x.packet.transaction.balance

instance (s : State ι Process Packet) (x : Incoming ι) : Decidable (InstallsHarmlessly s x) :=
  inferInstanceAs (Decidable (_ → _))

/-- The invariant behind `Accounted`. -/
def AccountedInv (i : ι) (joined : ℕ) (past : List (Entry ι Packet)) (p : Process)
    (sent : List (ℕ × Packet)) : Prop :=
  LedgerInv i joined past p sent ∧
    p.ledger.balance = effects p.ledger.executed (base (messages (past.drop joined)))

/-- Every step that installs harmlessly, if it installs at all, keeps balances accounted for. -/
theorem accountedInv_step {e : Event ι Action} (h : WellFormed s ∧ Holds AccountedInv s)
    (he : ¬ Clears e ∧ OnDelivery InstallsHarmlessly s e) (hs : D.system.step s e = some s') :
    WellFormed s' ∧ Holds AccountedInv s' := by
  refine TotalOrder.holds_step (C := fun s e ↦ ¬ Clears e ∧ OnDelivery InstallsHarmlessly s e)
    ?_ ?_ ?_ h he hs
  · intro i past
    simp [AccountedInv, LedgerInv, Deployment.fresh, Process.ledger_new, Ledger.empty, base,
      installed, installedFrom]
  · rintro s i k p ⟨hk, -⟩ _ hI hp
    obtain ⟨hledger, hbalance⟩ := hI i p (TotalOrder.proc_of_member? hp)
    have hact := Process.ledger_act (p := p.node) hk
    refine ⟨hact.trans hledger, ?_⟩
    rw [show (bank _).act = Process.act from rfl, hact]
    exact hbalance
  · rintro s i p x ⟨-, hx'⟩ hwf hI hp hx
    have hproc := TotalOrder.proc_of_member? hp
    have hle := hwf.joined_le_length_past hproc
    obtain ⟨hledger, hbalance⟩ := hI i p hproc
    refine ⟨hledger.react hle D.privateGroup x, ?_⟩
    rw [ledger_react, List.drop_append_of_le_length hle, messages_append]
    cases x with
    | view v => simpa using hbalance
    | message k w q =>
        have hcond : InstallsHarmlessly s ⟨p, k, w, q⟩ := OnDelivery.of_message hx' hp hx
        have hledger : p.node.ledger = _ := hledger
        rw [InstallsHarmlessly, hledger] at hcond
        rw [hledger] at hbalance ⊢
        rw [messages_message, ← List.foldl_append]
        exact balance_foldl_concat hbalance hcond

/-- A step after which all balances are accounted for has installed harmlessly. -/
theorem installsHarmlessly_of_accounted (h : WellFormed s ∧ Holds LedgerInv s)
    (e : Event ι Action) (hnext : ∀ s', D.system.step s e = some s' → Accounted s') :
    OnDelivery InstallsHarmlessly s e := by
  cases e with
  | deliver i =>
      rintro ⟨p, k, w, q⟩ hx hinst
      obtain ⟨hp, hx⟩ := incoming_cases hx
      have hledger : p.node.ledger = _ := h.2 i p (TotalOrder.proc_of_member? hp)
      obtain ⟨s', p', hs', hp', hnode, hdelivered⟩ : ∃ s' p',
          (TotalOrder.machine (bank D.privateGroup) D.fresh).step s (.deliver i) = some s' ∧
          s'.proc i = some p' ∧
          p'.node = (react (bank D.privateGroup) p.node (.message k w q)).1 ∧
          s'.delivered p' = s.delivered p ++ [Entry.message k w q] :=
        TotalOrder.exists_step_deliver h.1 hp hx
      have hacc : p'.node.ledger.balance = effects p'.node.ledger.executed _ :=
        hnext s' hs' i p' hp'
      have hnew : p'.node.ledger =
          { p.node.ledger with balance := q.transaction.balance, initialized := true } := by
        rw [hnode, ledger_react]
        exact Ledger.deliver_of_installs hinst
      rw [hnew, hdelivered, messages_append, messages_message, base_concat,
        show s.delivered p = (s.past p).drop p.joined from rfl, ← hledger, if_pos hinst] at hacc
      exact hacc.symm
  | _ => trivial

/-- **Accounting.**  In a run without `cleanHistory`, every balance is always accounted for
exactly if no replica installs a balance over transactions whose effects it erases. -/
theorem accounted_iff (D : Deployment ι) (hk : ∀ e ∈ es, ¬ Clears e) :
    D.system.Always Accounted D.start es ↔
      D.system.Along (OnDelivery InstallsHarmlessly) D.start es := by
  constructor
  · exact Machine.along_of_always (fun s e s' h hc hs ↦ ledgerInv_step h hc hs)
      (fun s e h ↦ installsHarmlessly_of_accounted h e) (ledgerInv_start D)
      (Machine.along_of_forall_mem hk _)
  · intro hc
    have hstart : WellFormed D.start ∧ Holds AccountedInv D.start :=
      TotalOrder.holds_start (fun i past ↦ by simp [AccountedInv, LedgerInv, Deployment.fresh,
        Process.ledger_new, Ledger.empty, base, installed, installedFrom]) []
    have halong := Machine.along_and.mpr
      ⟨Machine.along_of_forall_mem (M := D.system) hk D.start, hc⟩
    exact (Machine.always_of_invariant (fun s e s' h hc hs ↦ accountedInv_step h hc hs) hstart
      halong).mono fun s h i p hp ↦ (h.2 i p hp).2

end

/-! ## A founder that sends itself a balance -/

/-- Two processes, of which the first does not wait for the second. -/
def duo : Deployment (Fin 2) := .numbered [1, 2].get

/-- The second process joins and is sent a balance before a deposit is delivered. -/
def quietJoin : List (Event (Fin 2) Action) :=
  [.join 0, .deliver 0, .join 1, .deliver 0, .order 0, .deliver 0, .deliver 1, .deliver 1,
    .act 0 (.command "deposit 100"), .act 0 (.tick 1), .order 0, .deliver 0, .deliver 1]

theorem accounted_iff_quietJoin : duo.system.Always Accounted duo.start quietJoin ↔
    duo.system.Along (OnDelivery InstallsHarmlessly) duo.start quietJoin :=
  accounted_iff duo (by decide +kernel)

/-- The second process joins while a deposit is on its way. -/
def eraseDeposit : List (Event (Fin 2) Action) :=
  [.join 0, .deliver 0, .act 0 (.command "deposit 100"), .act 0 (.tick 1), .join 1, .order 0,
    .deliver 0, .deliver 0, .order 0, .deliver 0]

/-- The founder handles the joining with a balance of 0, executes the deposit and then
installs the 0 it has sent. -/
theorem not_accounted_eraseDeposit : (∀ e ∈ eraseDeposit, ¬ Clears e) ∧
    ∃ s p, duo.system.run duo.start eraseDeposit = some s ∧ s.proc 0 = some p ∧
      p.node.machine.replica.balance = 0 ∧
      effects p.node.machine.replica.executedList (base (messages (s.delivered p))) = 100 ∧
      ¬ Accounted s := by
  refine ⟨by decide +kernel, ?_⟩
  have h : (duo.system.run duo.start eraseDeposit).any (fun s ↦ (s.proc 0).any fun p ↦
      p.node.machine.replica.balance = 0 ∧
      effects p.node.machine.replica.executedList (base (messages (s.delivered p))) = 100) := by
    decide +kernel
  obtain ⟨s, hs, h⟩ := (Option.any_eq_true _ _).mp h
  obtain ⟨p, hp, h⟩ := (Option.any_eq_true _ _).mp h
  obtain ⟨hb, he⟩ := of_decide_eq_true h
  refine ⟨s, p, hs, hp, hb, he, fun hacc ↦ ?_⟩
  have := hacc 0 p hp
  rw [hb, he] at this
  exact absurd this (by decide +kernel)

end ReplicatedBank
