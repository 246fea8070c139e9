import ReplicatedBank.Distributed.FirstCopies
import ReplicatedBank.ParseInput

/-!
# The ledger: what a replica makes of the messages it is delivered

The abstract view of a replica as far as money is concerned: the balance, the list of
executed transactions and whether an `UPDATE_BALANCE` has been installed.  Messages
act on it by `Ledger.deliver`, and `ledger_regularMessageReceived` says that the
listener does just that; commands other than `cleanHistory`, ticks of the executor and
membership messages do not touch it.  So the ledger of a replica is a function of the
sequence of messages it has been delivered, and the second half of this file computes
that function: the executed transactions are the first copies of the `DEPOSIT`s and
`INTEREST`s delivered, and the installed balance is that of the first
`UPDATE_BALANCE` whose id is not already taken.
-/

namespace ReplicatedBank

open Distributed

/-! ## Effects -/

/-- What executing a transaction does to a balance. -/
def Transaction.effect (t : Transaction) (b : ℚ) : ℚ :=
  match t.type with
  | .deposit => b + t.balance
  | .interest => b * (1 + t.percent / 100)
  | .syncedBalance | .updateBalance | .none => b

/-- The effects of a list of transactions, in list order. -/
def effects (ts : List Transaction) (b : ℚ) : ℚ := ts.foldl (fun b t ↦ t.effect b) b

@[simp] theorem effects_nil (b : ℚ) : effects [] b = b := rfl

@[simp] theorem effects_concat (ts : List Transaction) (t : Transaction) (b : ℚ) :
    effects (ts ++ [t]) b = t.effect (effects ts b) := by
  simp [effects, List.foldl_append]

/-- The factor by which the `INTEREST`s of a list multiply a balance. -/
def growth (ts : List Transaction) : ℚ :=
  (ts.map fun t ↦ if t.type = .interest then 1 + t.percent / 100 else 1).prod

/-- Executing a list is an affine function of the balance. -/
theorem effects_eq (ts : List Transaction) (b : ℚ) :
    effects ts b = b * growth ts + effects ts 0 := by
  induction ts using List.reverseRecOn with
  | nil => simp [growth]
  | append_singleton ts t ih =>
      have hgrowth : growth (ts ++ [t]) =
          growth ts * if t.type = .interest then 1 + t.percent / 100 else 1 := by
        simp [growth]
      rw [effects_concat, effects_concat, hgrowth, ih]
      cases h : t.type <;> simp [Transaction.effect, h] <;> ring

/-- The uniqueIds of a list of transactions. -/
def ids (ts : List Transaction) : List String := ts.map Transaction.uniqueId

@[simp] theorem ids_nil : ids [] = [] := rfl

@[simp] theorem ids_append (ts us : List Transaction) : ids (ts ++ us) = ids ts ++ ids us :=
  List.map_append

@[simp] theorem mem_ids {ts : List Transaction} {x : String} :
    x ∈ ids ts ↔ ∃ t ∈ ts, t.uniqueId = x := List.mem_map

/-- The `DEPOSIT`s and `INTEREST`s of a sequence of messages. -/
def monetary (ts : List Transaction) : List Transaction := ts.filter Transaction.isMonetary

@[simp] theorem monetary_nil : monetary [] = [] := rfl

@[simp] theorem monetary_append (ts us : List Transaction) :
    monetary (ts ++ us) = monetary ts ++ monetary us := List.filter_append ..

theorem mem_monetary {ts : List Transaction} {t : Transaction} :
    t ∈ monetary ts ↔ t ∈ ts ∧ t.isMonetary := List.mem_filter

theorem monetary_singleton_of_isMonetary {t : Transaction} (h : t.isMonetary) :
    monetary [t] = [t] := by simp [monetary, h]

theorem monetary_singleton_of_not_isMonetary {t : Transaction} (h : ¬ t.isMonetary) :
    monetary [t] = [] := by simp [monetary, h]

/-- The first monetary message with a given id. -/
theorem find?_monetary (ts : List Transaction) (x : String) :
    (monetary ts).find? (·.uniqueId = x) = ts.find? fun t ↦ t.isMonetary && t.uniqueId = x := by
  rw [monetary, List.find?_filter]
  congr
  funext t
  simp [Bool.decide_and]

/-! ## The abstract ledger -/

/-- What matters of a replica for its balance. -/
structure Ledger where
  /-- The account's balance. -/
  balance : ℚ
  /-- The executed transactions, which double as the duplicate filter. -/
  executed : List Transaction
  /-- Whether an `UPDATE_BALANCE` has been installed. -/
  initialized : Bool
deriving DecidableEq

namespace Ledger

/-- The ledger of a process that has just been started. -/
def empty : Ledger := ⟨0, [], false⟩

/-- A message that the duplicate filter lets through and that sets the balance. -/
structure Installs (ℓ : Ledger) (t : Transaction) : Prop where
  type_eq : t.type = .updateBalance
  uninitialized : ℓ.initialized = false
  fresh : t.uniqueId ∉ ids ℓ.executed

instance (ℓ : Ledger) (t : Transaction) : Decidable (ℓ.Installs t) :=
  decidable_of_iff (t.type = .updateBalance ∧ ℓ.initialized = false ∧ t.uniqueId ∉ ids ℓ.executed)
    ⟨fun h ↦ ⟨h.1, h.2.1, h.2.2⟩, fun h ↦ ⟨h.1, h.2, h.3⟩⟩

/-- A message that the duplicate filter lets through and that is executed. -/
structure Executes (ℓ : Ledger) (t : Transaction) : Prop where
  isMonetary : t.isMonetary
  fresh : t.uniqueId ∉ ids ℓ.executed

instance (ℓ : Ledger) (t : Transaction) : Decidable (ℓ.Executes t) :=
  decidable_of_iff (t.isMonetary ∧ t.uniqueId ∉ ids ℓ.executed)
    ⟨fun h ↦ ⟨h.1, h.2⟩, fun h ↦ ⟨h.1, h.2⟩⟩

/-- The reaction to a message. -/
def deliver (ℓ : Ledger) (t : Transaction) : Ledger :=
  if ℓ.Executes t then
    { ℓ with balance := t.effect ℓ.balance, executed := ℓ.executed ++ [t] }
  else if ℓ.Installs t then { ℓ with balance := t.balance, initialized := true }
  else ℓ

variable {ℓ : Ledger} {t : Transaction} {ts us : List Transaction}

theorem Executes.ne_updateBalance (h : ℓ.Executes t) : t.type ≠ .updateBalance :=
  Transaction.ne_updateBalance h.isMonetary

theorem Installs.not_isMonetary (h : ℓ.Installs t) : ¬ t.isMonetary :=
  fun hm ↦ Transaction.ne_updateBalance hm h.type_eq

theorem deliver_of_executes (h : ℓ.Executes t) : ℓ.deliver t =
    { ℓ with balance := t.effect ℓ.balance, executed := ℓ.executed ++ [t] } := if_pos h

theorem deliver_of_installs (h : ℓ.Installs t) : ℓ.deliver t =
    { ℓ with balance := t.balance, initialized := true } := by
  rw [deliver, if_neg fun hx ↦ h.not_isMonetary hx.isMonetary, if_pos h]

theorem deliver_of_not (hx : ¬ ℓ.Executes t) (hi : ¬ ℓ.Installs t) : ℓ.deliver t = ℓ := by
  rw [deliver, if_neg hx, if_neg hi]

/-- **What a message can do** to a ledger: be executed, be installed, or nothing. -/
theorem deliver_cases (ℓ : Ledger) (t : Transaction) :
    (ℓ.Executes t ∧ ℓ.deliver t =
      { ℓ with balance := t.effect ℓ.balance, executed := ℓ.executed ++ [t] }) ∨
    (ℓ.Installs t ∧ ℓ.deliver t = { ℓ with balance := t.balance, initialized := true }) ∨
    (¬ ℓ.Executes t ∧ ¬ ℓ.Installs t ∧ ℓ.deliver t = ℓ) := by
  by_cases hx : ℓ.Executes t
  · exact .inl ⟨hx, deliver_of_executes hx⟩
  · by_cases hi : ℓ.Installs t
    · exact .inr (.inl ⟨hi, deliver_of_installs hi⟩)
    · exact .inr (.inr ⟨hx, hi, deliver_of_not hx hi⟩)

/-- A message adds itself to the executed transactions if it is monetary and new. -/
theorem executed_deliver (ℓ : Ledger) (t : Transaction) :
    (ℓ.deliver t).executed =
      if t.isMonetary then keep Transaction.uniqueId ℓ.executed t else ℓ.executed := by
  rcases ℓ.deliver_cases t with ⟨hx, h⟩ | ⟨hi, h⟩ | ⟨hx, -, h⟩ <;> rw [h]
  · rw [if_pos hx.isMonetary, keep_of_notMem hx.fresh]
  · rw [if_neg hi.not_isMonetary]
  · by_cases hm : t.isMonetary
    · rw [if_pos hm, keep_of_mem]
      by_contra hc
      exact hx ⟨hm, hc⟩
    · rw [if_neg hm]

/-- The ids that the duplicate filter knows after a message. -/
theorem mem_ids_executed_deliver {x : String} : x ∈ ids (ℓ.deliver t).executed ↔
    x ∈ ids ℓ.executed ∨ t.isMonetary ∧ x = t.uniqueId := by
  rw [executed_deliver]
  by_cases hm : t.isMonetary
  · rw [if_pos hm, keep]
    split
    · rename_i h
      exact ⟨.inl, fun hx ↦ hx.elim id fun hx ↦ hx.2 ▸ h⟩
    · rw [ids_append, List.mem_append]
      simp [ids, hm]
  · simp [hm]

/-- An `UPDATE_BALANCE` with an id of its own leaves a replica initialized. -/
theorem initialized_deliver (ℓ : Ledger) (t : Transaction) : (ℓ.deliver t).initialized =
    (ℓ.initialized || decide (t.type = .updateBalance ∧ t.uniqueId ∉ ids ℓ.executed)) := by
  rcases ℓ.deliver_cases t with ⟨hx, h⟩ | ⟨hi, h⟩ | ⟨-, hi, h⟩ <;> rw [h]
  · simp [hx.ne_updateBalance]
  · simp [hi.type_eq, hi.fresh]
  · cases hinit : ℓ.initialized with
    | true => rfl
    | false =>
        have hcond : ¬ (t.type = .updateBalance ∧ t.uniqueId ∉ ids ℓ.executed) :=
          fun hc ↦ hi ⟨hc.1, hinit, hc.2⟩
        simp only [hcond, decide_false, Bool.or_self]

end Ledger

/-! ## Replicas as ledgers -/

/-- The abstract view of a replica. -/
def ReplicatedStateMachine.ledger (m : ReplicatedStateMachine) : Ledger where
  balance := m.replica.balance
  executed := m.replica.executedList
  initialized := m.alreadyInitializedBalance

namespace ReplicatedStateMachine

variable (m : ReplicatedStateMachine)

@[simp] theorem ledger_write (lines : List Output) : (m.write lines).ledger = m.ledger := rfl

/-- The filter of the listener is the filter of the account. -/
theorem any_executedList_eq (t : Transaction) :
    m.replica.executedList.any (·.uniqueId = t.uniqueId) = m.replica.alreadyExecuted t := rfl

theorem ledger_execute (t : Transaction) (effect : ℚ → ℚ)
    (h : ¬ m.replica.alreadyExecuted t) :
    { m with replica := m.replica.execute t effect }.ledger =
      { m.ledger with
        balance := effect m.replica.balance
        executed := m.replica.executedList ++ [t] } := by
  rw [Client.execute_of_not_alreadyExecuted h]
  rfl

/-- **The listener implements the ledger.** -/
theorem ledger_regularMessageReceived (t : Transaction) :
    (AdvancedListener.regularMessageReceived m t).ledger = m.ledger.deliver t := by
  unfold AdvancedListener.regularMessageReceived
  rw [any_executedList_eq]
  by_cases hf : m.replica.alreadyExecuted t
  · have hmem : t.uniqueId ∈ ids m.ledger.executed := Client.alreadyExecuted_iff.mp hf
    rw [if_pos hf, Ledger.deliver_of_not (fun h ↦ h.fresh hmem) (fun h ↦ h.fresh hmem)]
  · have hfresh : t.uniqueId ∉ ids m.ledger.executed :=
      fun h ↦ hf (Client.alreadyExecuted_iff.mpr h)
    rw [if_neg hf]
    cases hty : t.type with
    | deposit =>
        rw [Ledger.deliver_of_executes ⟨by simp [Transaction.isMonetary, hty], hfresh⟩]
        simp only [Transaction.effect, hty]
        exact ledger_execute m t (· + t.balance) hf
    | interest =>
        rw [Ledger.deliver_of_executes ⟨by simp [Transaction.isMonetary, hty], hfresh⟩]
        simp only [Transaction.effect, hty]
        exact ledger_execute m t (· * (1 + t.percent / 100)) hf
    | syncedBalance =>
        rw [Ledger.deliver_of_not (fun h ↦ Transaction.ne_syncedBalance h.isMonetary hty)
          (fun h ↦ by simpa [hty] using h.type_eq)]
        simp only [AdvancedListener.receiveSyncedBalance, Client.getSyncedBalance, if_neg hf]
        rfl
    | updateBalance =>
        cases hi : m.alreadyInitializedBalance with
        | true =>
            rw [Ledger.deliver_of_not (fun h ↦ h.ne_updateBalance hty)
              (fun h ↦ by simpa [ledger, hi] using h.uninitialized)]
            simp [AdvancedListener.receiveUpdateBalance, hi]
        | false =>
            rw [Ledger.deliver_of_installs ⟨hty, hi, hfresh⟩]
            simp only [AdvancedListener.receiveUpdateBalance, hi]
            rfl
    | none =>
        rw [Ledger.deliver_of_not
          (fun h ↦ by simpa [Transaction.isMonetary, hty] using h.isMonetary)
          (fun h ↦ by simpa [hty] using h.type_eq)]
        rfl

/-- Only `cleanHistory` among the commands touches the ledger. -/
theorem ledger_command {input : String} (h : ¬ isCleanHistory input) :
    (m.command input).ledger = m.ledger := by
  have hinit := (commanded m input).alreadyInitializedBalance
  rcases command_cases m input with ⟨-, hr⟩ | ⟨t, -, -, hr⟩ | ⟨hc, -⟩
  · simp [ledger, hr, hinit]
  · simp [ledger, hr, hinit, Client.addOutstandingCollection]
  · exact absurd hc h

/-- `cleanHistory` empties the duplicate filter and leaves the rest. -/
theorem ledger_command_cases (input : String) :
    (m.command input).ledger = m.ledger ∨
      isCleanHistory input ∧ (m.command input).ledger = { m.ledger with executed := [] } := by
  have hinit := (commanded m input).alreadyInitializedBalance
  rcases command_cases m input with ⟨-, hr⟩ | ⟨t, -, -, hr⟩ | ⟨hc, -, hr⟩
  · exact .inl (by simp [ledger, hr, hinit])
  · exact .inl (by simp [ledger, hr, hinit, Client.addOutstandingCollection])
  · exact .inr ⟨hc, by simp [ledger, hr, hinit, Client.setExecutedTransactions]⟩

theorem ledger_broadcast (sent : ℕ) : (m.broadcast sent).1.ledger = m.ledger := by
  obtain ⟨lines, h⟩ := broadcast_eq m sent
  rw [h]
  rfl

theorem ledger_membershipMessageReceived (info : MembershipInfo) :
    (AdvancedListener.membershipMessageReceived m info).1.ledger = m.ledger := by
  obtain ⟨_, _, _, h⟩ := AdvancedListener.membershipMessageReceived_state m info
  rw [h]
  rfl

end ReplicatedStateMachine

/-! ## Replaying a sequence of messages -/

/-- The `UPDATE_BALANCE` a sequence of messages installs when the ids in `taken` are
already executed: the first one whose id is neither taken nor that of an earlier
`DEPOSIT` or `INTEREST`. -/
def installedFrom (taken : List String) : List Transaction → Option Transaction
  | [] => none
  | t :: ts =>
      if t.type = .updateBalance ∧ t.uniqueId ∉ taken then some t
      else installedFrom (if t.isMonetary then t.uniqueId :: taken else taken) ts

/-- The `UPDATE_BALANCE` that a fresh replica installs. -/
def installed (ts : List Transaction) : Option Transaction := installedFrom [] ts

theorem installedFrom_concat (taken : List String) (ts : List Transaction) (t : Transaction) :
    installedFrom taken (ts ++ [t]) = (installedFrom taken ts).or
      (if t.type = .updateBalance ∧ t.uniqueId ∉ taken ∧ t.uniqueId ∉ ids (monetary ts)
        then some t else none) := by
  induction ts generalizing taken with
  | nil => simp [installedFrom]
  | cons u ts ih =>
      simp only [List.cons_append, installedFrom]
      by_cases hu : u.type = .updateBalance ∧ u.uniqueId ∉ taken
      · simp [hu]
      · rw [if_neg hu, if_neg hu, ih]
        by_cases hm : u.isMonetary
        · simp only [monetary, List.filter_cons, hm, if_true, ids, List.map_cons, List.mem_cons,
            not_or]
          congr 2
          simp only [eq_iff_iff]
          tauto
        · simp [monetary, hm]

theorem installed_concat (ts : List Transaction) (t : Transaction) :
    installed (ts ++ [t]) = (installed ts).or
      (if t.type = .updateBalance ∧ t.uniqueId ∉ ids (monetary ts) then some t else none) := by
  simp [installed, installedFrom_concat]

namespace Ledger

variable {ℓ : Ledger} {t : Transaction}

/-- The executed transactions grow by the new ones among what is delivered. -/
theorem executed_foldl_eq (ℓ : Ledger) (ts : List Transaction) :
    (ts.foldl deliver ℓ).executed =
      (monetary ts).foldl (keep Transaction.uniqueId) ℓ.executed := by
  induction ts using List.reverseRecOn with
  | nil => rfl
  | append_singleton ts t ih =>
      rw [List.foldl_append, List.foldl_cons, List.foldl_nil, executed_deliver, ih,
        monetary_append]
      by_cases hm : t.isMonetary
      · rw [if_pos hm, monetary_singleton_of_isMonetary hm, List.foldl_append]
        rfl
      · rw [if_neg hm, monetary_singleton_of_not_isMonetary hm, List.append_nil]

/-- **The executed transactions** are the first copies of what was delivered. -/
theorem executed_foldl (h : ℓ.executed = []) (ts : List Transaction) :
    (ts.foldl deliver ℓ).executed = firstCopies Transaction.uniqueId (monetary ts) := by
  rw [executed_foldl_eq, h, firstCopies]

/-- Once a balance is installed, what is executed is all that changes it. -/
theorem foldl_of_initialized (h : ℓ.initialized) (ts : List Transaction) :
    (ts.foldl deliver ℓ).initialized ∧ ∃ new,
      (ts.foldl deliver ℓ).executed = ℓ.executed ++ new ∧
      (ts.foldl deliver ℓ).balance = effects new ℓ.balance := by
  induction ts using List.reverseRecOn with
  | nil => exact ⟨h, [], (List.append_nil _).symm, rfl⟩
  | append_singleton ts t ih =>
      obtain ⟨hi, new, hx, hb⟩ := ih
      rw [List.foldl_append, List.foldl_cons, List.foldl_nil]
      rcases deliver_cases (ts.foldl deliver ℓ) t with ⟨-, hd⟩ | ⟨hinst, -⟩ | ⟨-, -, hd⟩
      · exact ⟨by rw [hd]; exact hi, new ++ [t], by rw [hd, hx, List.append_assoc],
          by rw [hd, effects_concat, ← hb]⟩
      · exact absurd (hi.symm.trans hinst.uninitialized) (by simp)
      · exact ⟨by rw [hd]; exact hi, new, by rw [hd, hx], by rw [hd, hb]⟩

/-- The duplicate filter of a fresh replica knows the ids it has been delivered. -/
theorem mem_ids_executed_foldl (h : ℓ.executed = []) (ts : List Transaction) (x : String) :
    x ∈ ids (ts.foldl deliver ℓ).executed ↔ x ∈ ids (monetary ts) := by
  rw [executed_foldl h]
  exact mem_map_firstCopies

/-- **Initialization**: a fresh replica has installed a balance once it has been
delivered an `UPDATE_BALANCE` with an id of its own. -/
theorem initialized_foldl (ts : List Transaction) :
    (ts.foldl deliver empty).initialized = (installed ts).isSome := by
  induction ts using List.reverseRecOn with
  | nil => rfl
  | append_singleton ts t ih =>
      rw [List.foldl_append, List.foldl_cons, List.foldl_nil, installed_concat]
      have hids := mem_ids_executed_foldl (ℓ := empty) rfl ts t.uniqueId
      rcases deliver_cases (ts.foldl deliver empty) t with ⟨hx, h⟩ | ⟨hi, h⟩ | ⟨-, hi, h⟩
      · rw [h]
        simpa [hx.ne_updateBalance] using ih
      · have hnone : installed ts = none := by
          simpa [hi.uninitialized] using ih.symm
        have hcond : t.type = .updateBalance ∧ t.uniqueId ∉ ids (monetary ts) :=
          ⟨hi.type_eq, fun hc ↦ hi.fresh (hids.mpr hc)⟩
        rw [h, hnone, if_pos hcond]
        rfl
      · rw [h, ih]
        cases ho : installed ts with
        | some u => rfl
        | none =>
            have hcond : ¬ (t.type = .updateBalance ∧ t.uniqueId ∉ ids (monetary ts)) :=
              fun hc ↦ hi ⟨hc.1, by rw [ih, ho]; rfl, fun hm ↦ hc.2 (hids.mp hm)⟩
            rw [if_neg hcond]
            rfl

/-- Without an `UPDATE_BALANCE` the balance is the effect of the executed transactions. -/
theorem balance_foldl_of_no_updateBalance (h : ℓ.executed = []) (ts : List Transaction)
    (hts : ∀ t ∈ ts, t.type ≠ .updateBalance) :
    (ts.foldl deliver ℓ).balance = effects (ts.foldl deliver ℓ).executed ℓ.balance := by
  induction ts using List.reverseRecOn with
  | nil => simp [h]
  | append_singleton ts t ih =>
      have ih := ih fun u hu ↦ hts u (List.mem_append_left _ hu)
      rw [List.foldl_append, List.foldl_cons, List.foldl_nil]
      rcases deliver_cases (ts.foldl deliver ℓ) t with ⟨-, h⟩ | ⟨hi, -⟩ | ⟨-, -, h⟩
      · simp only [h, effects_concat, ih]
      · exact absurd hi.type_eq (hts t (by simp))
      · rw [h, ih]

/-- Before anything is installed the balance is the effect of the executed
transactions on `0`. -/
theorem balance_foldl_of_installed_eq_none (ts : List Transaction) (h : installed ts = none) :
    (ts.foldl deliver empty).balance = effects (ts.foldl deliver empty).executed 0 := by
  induction ts using List.reverseRecOn with
  | nil => rfl
  | append_singleton ts t ih =>
      have hinit := initialized_foldl (ts ++ [t])
      rw [h, Option.isSome_none] at hinit
      rw [installed_concat, Option.or_eq_none_iff] at h
      have ih := ih h.1
      rw [List.foldl_append, List.foldl_cons, List.foldl_nil] at hinit ⊢
      rcases deliver_cases (ts.foldl deliver empty) t with ⟨-, h'⟩ | ⟨-, h'⟩ | ⟨-, -, h'⟩
      · simp only [h', effects_concat, ih]
      · rw [h'] at hinit
        exact absurd hinit (by simp)
      · rw [h', ih]

/-- One more message installs a balance exactly if nothing has been installed and its id is
new. -/
theorem installed_concat_eq (ts : List Transaction) (t : Transaction) :
    installed (ts ++ [t]) =
      if (ts.foldl deliver empty).Installs t then some t else installed ts := by
  have hinit := initialized_foldl ts
  have hids := mem_ids_executed_foldl (ℓ := empty) rfl ts t.uniqueId
  rw [installed_concat]
  by_cases h : (ts.foldl deliver empty).Installs t
  · have hnone : installed ts = none := by simpa [h.uninitialized] using hinit.symm
    rw [if_pos h, hnone, if_pos ⟨h.type_eq, fun hc ↦ h.fresh (hids.mpr hc)⟩]
    rfl
  · rw [if_neg h]
    cases ho : installed ts with
    | some u => rfl
    | none =>
        have hcond : ¬ (t.type = .updateBalance ∧ t.uniqueId ∉ ids (monetary ts)) :=
          fun hc ↦ h ⟨hc.1, by rw [hinit, ho]; rfl, fun hm ↦ hc.2 (hids.mp hm)⟩
        rw [if_neg hcond]
        rfl

end Ledger

end ReplicatedBank
