import ReplicatedBank.Distributed.Machine
import ReplicatedBank.Process

/-!
# What one replica knows about its transactions

A single process under arbitrary commands and deliveries, of which only this is assumed:
a `DEPOSIT`, `INTEREST` or `SYNCED_BALANCE` with an id of this process is a copy of
something the process has accepted.  The two lists of the account then have closed
forms: the outstanding collection is what was accepted and not delivered yet
(`outstanding_eq_filter`), and the executed transactions are the first copies of the
deliveries.  Everything that `Conserved` says about single transactions and about the
counters is read off from these.
-/

namespace ReplicatedBank

open Distributed

/-- A process with the history of what it has been delivered. -/
structure Site where
  process : Process
  /-- History: the messages delivered so far. -/
  delivered : List Transaction

namespace Site

/-- What can happen to the process. -/
inductive Event where
  /-- A command line is processed. -/
  | command (input : String)
  /-- A message is delivered. -/
  | deliver (t : Transaction)
deriving DecidableEq

/-- The process as a machine; every event is always possible. -/
def machine : Machine Site Event where
  step s
    | .command input => some { s with process := (s.process.act (.command input)).1 }
    | .deliver t =>
        some { process := s.process.receive ⟨t, false, false⟩, delivered := s.delivered ++ [t] }

/-- A process that has just been started. -/
def new (replicaName privateGroup : String) (numberOfReplicas : ℤ) : Site :=
  ⟨.new replicaName privateGroup numberOfReplicas, []⟩

variable (s : Site)

/-- The name of the process. -/
abbrev replicaName : String := s.process.machine.replicaName

/-- The account of the process. -/
abbrev replica : Client := s.process.machine.replica

/-- The transactions it has accepted. -/
abbrev accepted : List Transaction := s.process.accepted

/-- Its history is not cleared, and what it is delivered of the three kinds that a replica
queues is either a copy of something it has queued or carries an id of another name. -/
def Admissible (s : Site) : Event → Prop
  | .command input => ¬ isCleanHistory input
  | .deliver t => t.isMonetary ∨ t.type = .syncedBalance →
      t ∈ s.accepted ∨ ¬ Issued s.replicaName t

end Site

/-- A transaction is in a list, and nothing else there has its id. -/
def OnceIn (t : Transaction) (ts : List Transaction) : Prop :=
  t ∈ ts ∧ (ids ts).count t.uniqueId = 1

/-- Nothing in a list has the id of a transaction. -/
def NotIn (t : Transaction) (ts : List Transaction) : Prop := t.uniqueId ∉ ids ts

/-- No accepted transaction is lost or duplicated, and the counters count. -/
structure Conserved (s : Site) : Prop where
  monetary : ∀ t ∈ s.accepted, t.isMonetary →
    OnceIn t s.replica.outstandingCollection ∧ NotIn t s.replica.executedList ∨
    OnceIn t s.replica.executedList ∧ NotIn t s.replica.outstandingCollection
  syncedBalance : ∀ t ∈ s.accepted, t.type = .syncedBalance →
    (t ∉ s.delivered → OnceIn t s.replica.outstandingCollection) ∧
    (t ∈ s.delivered → NotIn t s.replica.outstandingCollection)
  accepted_length : s.accepted.length = s.replica.outstandingCollection.length +
    (s.replica.executedList.filter (· ∈ s.accepted)).length +
    (s.accepted.filter fun t ↦ t.type = .syncedBalance ∧ t ∈ s.delivered).length
  outstandingCounter_eq : s.replica.outstandingCounter = .after s.accepted.length
  orderCounter_eq : s.replica.orderCounter = .after s.replica.executedList.length

/-! ## The invariant -/

/-- What every step of the site preserves. -/
structure Site.Inv (s : Site) : Prop where
  numbered : s.process.Numbered
  ledger_eq : s.process.ledger = s.delivered.foldl Ledger.deliver .empty
  orderCounter_eq : s.replica.orderCounter = .after s.replica.executedList.length
  accepted_type : ∀ t ∈ s.accepted, t.isMonetary ∨ t.type = .syncedBalance
  delivered_cases : ∀ t ∈ s.delivered, t.isMonetary ∨ t.type = .syncedBalance →
    t ∈ s.accepted ∨ ¬ Issued s.replicaName t
  outstanding_eq : s.accepted.length ≤ 2 ^ 32 →
    s.replica.outstandingCollection = s.accepted.filter (· ∉ s.delivered)

namespace Site.Inv

variable {s : Site} {t u : Transaction}

theorem executedList_eq (h : s.Inv) :
    s.replica.executedList = firstCopies Transaction.uniqueId (monetary s.delivered) := by
  rw [← Ledger.executed_foldl (ℓ := .empty) rfl, ← h.ledger_eq]
  rfl

theorem nodup_ids (h : s.Inv) (hlen : s.accepted.length ≤ 2 ^ 32) : (ids s.accepted).Nodup :=
  h.numbered.nodup_ids hlen

/-- An executed transaction with the id of an accepted one is that transaction, and has
been delivered. -/
theorem eq_of_mem_executedList (h : s.Inv) (hlen : s.accepted.length ≤ 2 ^ 32)
    (ht : t ∈ s.accepted) (hu : u ∈ s.replica.executedList) (hid : u.uniqueId = t.uniqueId) :
    u = t ∧ t ∈ s.delivered := by
  rw [h.executedList_eq] at hu
  obtain ⟨hu, hm⟩ := mem_monetary.mp (mem_of_mem_firstCopies hu)
  have hissued : Issued s.replicaName u := by
    obtain ⟨c, hc⟩ := h.numbered.issued ht
    exact ⟨c, hid.trans hc⟩
  have hacc : u ∈ s.accepted :=
    (h.delivered_cases u hu (.inl hm)).resolve_right fun hn ↦ hn hissued
  have heq : u = t := List.inj_on_of_nodup_map (h.nodup_ids hlen) hacc ht hid
  exact ⟨heq, heq ▸ hu⟩

theorem mem_executedList (h : s.Inv) (hlen : s.accepted.length ≤ 2 ^ 32) (ht : t ∈ s.accepted) :
    t ∈ s.replica.executedList ↔ t.isMonetary ∧ t ∈ s.delivered := by
  rw [h.executedList_eq]
  constructor
  · intro hmem
    obtain ⟨hd, hm⟩ := mem_monetary.mp (mem_of_mem_firstCopies hmem)
    exact ⟨hm, hd⟩
  · rintro ⟨hm, hd⟩
    have hid : t.uniqueId ∈ ids (firstCopies Transaction.uniqueId (monetary s.delivered)) :=
      mem_map_firstCopies.mpr (List.mem_map_of_mem (mem_monetary.mpr ⟨hd, hm⟩))
    obtain ⟨u, hu, hid⟩ := List.mem_map.mp hid
    rw [← h.executedList_eq] at hu ⊢
    exact (h.eq_of_mem_executedList hlen ht hu hid).1 ▸ hu

/-! ### Deliveries -/

/-- A delivery removes from the outstanding collection what it delivers, and only that. -/
theorem outstanding_deliver (h : s.Inv) (hlen : s.accepted.length ≤ 2 ^ 32)
    (ht : s.Admissible (.deliver t)) :
    (s.process.receive ⟨t, false, false⟩).outstanding =
      s.accepted.filter (· ∉ s.delivered ++ [t]) := by
  have hnodup := h.nodup_ids hlen
  have hsplit : s.accepted.filter (· ∉ s.delivered ++ [t]) =
      (s.accepted.filter (· ∉ s.delivered)).filter (· ≠ t) := by
    rw [List.filter_filter]
    refine List.filter_congr fun u _ ↦ ?_
    simp [and_comm]
  rw [hsplit, ← h.outstanding_eq hlen]
  by_cases hc : AdvancedListener.Consumes s.process.machine t
  · refine (AdvancedListener.outstandingCollection_of_consumes hc).trans ?_
    have hsub : s.replica.outstandingCollection.Sublist s.accepted := by
      rw [h.outstanding_eq hlen]
      exact List.filter_sublist
    rw [eraseP_eq_filter (hnodup.sublist (hsub.map _))]
    refine List.filter_congr fun u hu ↦ ?_
    rw [decide_eq_decide, not_iff_not]
    refine ⟨fun hid ↦ ?_, fun heq ↦ heq ▸ rfl⟩
    have hacc : t ∈ s.accepted := (ht hc.type_eq).resolve_right fun hn ↦ hn (by
      obtain ⟨c, hc⟩ := h.numbered.issued (hsub.subset hu)
      exact ⟨c, hid.symm.trans hc⟩)
    exact List.inj_on_of_nodup_map hnodup (hsub.subset hu) hacc hid
  · refine (AdvancedListener.outstandingCollection_of_not_consumes hc).trans ?_
    refine (List.filter_eq_self.mpr fun u hu ↦ ?_).symm
    rw [decide_eq_true_iff]
    rintro rfl
    refine hc ?_
    rw [h.outstanding_eq hlen, List.mem_filter, decide_eq_true_eq] at hu
    refine ⟨fun hexec ↦ hu.2 ?_, h.accepted_type u hu.1⟩
    obtain ⟨v, hv, hid⟩ := List.mem_map.mp hexec
    exact (h.eq_of_mem_executedList hlen hu.1 hv hid).2

theorem deliver (h : s.Inv) (ht : s.Admissible (.deliver t)) :
    Site.Inv { process := s.process.receive ⟨t, false, false⟩, delivered := s.delivered ++ [t] }
    where
  numbered := h.numbered.receive
  ledger_eq := by
    rw [Process.ledger_receive, h.ledger_eq, List.foldl_append]
    rfl
  orderCounter_eq :=
    AdvancedListener.orderCounter_regularMessageReceived (m := s.process.machine)
      h.orderCounter_eq t
  accepted_type := h.accepted_type
  delivered_cases u hu hty := by
    rw [Site.replicaName, Process.receive_replicaName]
    rcases List.mem_append.mp hu with hu | hu
    · exact h.delivered_cases u hu hty
    · rw [List.mem_singleton.mp hu] at hty ⊢
      exact ht hty
  outstanding_eq hlen := h.outstanding_deliver hlen ht

/-! ### Commands -/

/-- A queued transaction has a new id, so it has not been delivered. -/
theorem notMem_delivered (h : s.Inv) (ht : t.isMonetary ∨ t.type = .syncedBalance)
    (hissued : Issued s.replicaName t) (hnew : t ∉ s.accepted) : t ∉ s.delivered := fun hd ↦
  (h.delivered_cases t hd ht).elim hnew fun hn ↦ hn hissued

theorem command (h : s.Inv) {input : String} (hc : ¬ isCleanHistory input) :
    Site.Inv { s with process := (s.process.act (.command input)).1 } := by
  have hnum := h.numbered.act (.command input)
  have hledger := (Process.ledger_act (p := s.process) (k := .command input) hc).trans h.ledger_eq
  have hname := Process.act_replicaName (p := s.process) (k := .command input)
  rcases Process.act_cases s.process (.command input) with
    ⟨n, hm, ha, -⟩ | ⟨t, hacc, hm, ha, -⟩ | ⟨input', hk, hclean, -⟩
  · exact
      { numbered := hnum
        ledger_eq := hledger
        orderCounter_eq := by rw [Site.replica, hm]; exact h.orderCounter_eq
        accepted_type := by rw [Site.accepted, ha]; exact h.accepted_type
        delivered_cases := by
          rw [Site.accepted, Site.replicaName, ha, hname]; exact h.delivered_cases
        outstanding_eq := by rw [Site.accepted, Site.replica, ha, hm]; exact h.outstanding_eq }
  · have hty : t.isMonetary ∨ t.type = .syncedBalance := hacc.type_eq.imp_right And.left
    have hissued : Issued s.replicaName t := ⟨_, hacc.uniqueId_eq⟩
    exact
      { numbered := hnum
        ledger_eq := hledger
        orderCounter_eq := by rw [Site.replica, hm]; exact h.orderCounter_eq
        accepted_type := by
          rw [Site.accepted, ha]
          exact List.forall_mem_append.mpr ⟨h.accepted_type, by simpa using hty⟩
        delivered_cases := by
          rw [Site.accepted, Site.replicaName, ha, hname]
          exact fun u hu hty ↦ (h.delivered_cases u hu hty).imp_left (List.mem_append_left _)
        outstanding_eq := by
          intro hlen
          have hnodup := hnum.nodup_ids hlen
          rw [Site.accepted, ha] at hlen ⊢
          rw [ha, ids_append, List.nodup_append] at hnodup
          have hnew : t ∉ s.accepted := fun hmem ↦
            hnodup.2.2 _ (List.mem_map_of_mem hmem) _
              (List.mem_map_of_mem (List.mem_singleton_self t)) rfl
          have hd := h.notMem_delivered hty hissued hnew
          rw [List.length_append] at hlen
          rw [Site.replica, hm, Client.addOutstandingCollection, List.filter_append,
            ← h.outstanding_eq (Nat.le_of_add_right_le hlen)]
          simp [hd] }
  · exact absurd hclean (by cases hk; exact hc)

theorem new (replicaName privateGroup : String) (numberOfReplicas : ℤ) :
    (Site.new replicaName privateGroup numberOfReplicas).Inv where
  numbered := ⟨rfl, rfl⟩
  ledger_eq := rfl
  orderCounter_eq := rfl
  accepted_type := fun t ht ↦ absurd ht List.not_mem_nil
  delivered_cases := by simp [Site.new]
  outstanding_eq _ := rfl

/-- The invariant holds in every state of an admissible run. -/
theorem of_run {replicaName privateGroup : String} {numberOfReplicas : ℤ}
    {es : List Site.Event}
    (hadm : Site.machine.Along Site.Admissible
      (Site.new replicaName privateGroup numberOfReplicas) es)
    (hr : Site.machine.run (Site.new replicaName privateGroup numberOfReplicas) es = some s) :
    s.Inv := by
  refine Machine.run_invariant (P := Site.Inv) (C := Site.Admissible) ?_ (.new _ _ _) hadm hr
  intro s e s' h hc hs
  cases e with
  | command input =>
      cases hs
      exact h.command hc
  | deliver t =>
      cases hs
      exact h.deliver hc

end Site.Inv

/-! ## Conservation -/

theorem OnceIn.of_nodup {t : Transaction} {ts : List Transaction} (h : (ids ts).Nodup)
    (ht : t ∈ ts) : OnceIn t ts :=
  ⟨ht, List.count_eq_one_of_mem h (List.mem_map_of_mem ht)⟩

namespace Site.Inv

variable {s : Site} {t : Transaction}

theorem onceIn_outstanding (h : s.Inv) (hlen : s.accepted.length ≤ 2 ^ 32) (ht : t ∈ s.accepted)
    (hd : t ∉ s.delivered) : OnceIn t s.replica.outstandingCollection := by
  rw [h.outstanding_eq hlen]
  exact .of_nodup ((h.nodup_ids hlen).sublist (List.filter_sublist.map _))
    (List.mem_filter.mpr ⟨ht, decide_eq_true hd⟩)

theorem notIn_outstanding (h : s.Inv) (hlen : s.accepted.length ≤ 2 ^ 32) (ht : t ∈ s.accepted)
    (hd : t ∈ s.delivered) : NotIn t s.replica.outstandingCollection := by
  rw [h.outstanding_eq hlen]
  intro hid
  obtain ⟨u, hu, hid⟩ := List.mem_map.mp hid
  rw [List.mem_filter, decide_eq_true_eq] at hu
  exact hu.2 (List.inj_on_of_nodup_map (h.nodup_ids hlen) hu.1 ht hid ▸ hd)

theorem onceIn_executedList (h : s.Inv) (hlen : s.accepted.length ≤ 2 ^ 32) (ht : t ∈ s.accepted)
    (hm : t.isMonetary) (hd : t ∈ s.delivered) : OnceIn t s.replica.executedList := by
  refine .of_nodup ?_ ((h.mem_executedList hlen ht).mpr ⟨hm, hd⟩)
  rw [h.executedList_eq]
  exact nodup_map_firstCopies _

theorem notIn_executedList (h : s.Inv) (hlen : s.accepted.length ≤ 2 ^ 32) (ht : t ∈ s.accepted)
    (hd : t ∉ s.delivered) : NotIn t s.replica.executedList := by
  intro hid
  obtain ⟨u, hu, hid⟩ := List.mem_map.mp hid
  exact hd (h.eq_of_mem_executedList hlen ht hu hid).2

/-- The executed transactions of its own are the accepted `DEPOSIT`s and `INTEREST`s that
have been delivered. -/
theorem length_filter_executedList (h : s.Inv) (hlen : s.accepted.length ≤ 2 ^ 32) :
    (s.replica.executedList.filter (· ∈ s.accepted)).length =
      (s.accepted.filter fun t ↦ t.isMonetary ∧ t ∈ s.delivered).length := by
  refine List.Perm.length_eq ((List.perm_ext_iff_of_nodup ?_ ?_).mpr fun t ↦ ?_)
  · rw [h.executedList_eq]
    exact (List.Nodup.of_map _ (nodup_map_firstCopies _)).filter _
  · exact (List.Nodup.of_map _ (h.nodup_ids hlen)).filter _
  · simp only [List.mem_filter, decide_eq_true_eq]
    exact ⟨fun ⟨he, ha⟩ ↦ ⟨ha, (h.mem_executedList hlen ha).mp he⟩,
      fun ⟨ha, he⟩ ↦ ⟨(h.mem_executedList hlen ha).mpr he, ha⟩⟩

theorem accepted_length (h : s.Inv) (hlen : s.accepted.length ≤ 2 ^ 32) :
    s.accepted.length = s.replica.outstandingCollection.length +
      (s.replica.executedList.filter (· ∈ s.accepted)).length +
      (s.accepted.filter fun t ↦ t.type = .syncedBalance ∧ t ∈ s.delivered).length := by
  rw [h.length_filter_executedList hlen, h.outstanding_eq hlen]
  have htype := h.accepted_type
  generalize s.accepted = ts at htype ⊢
  induction ts with
  | nil => rfl
  | cons t ts ih =>
      have ih := ih fun u hu ↦ htype u (List.mem_cons_of_mem _ hu)
      have ht := htype t List.mem_cons_self
      by_cases hd : t ∈ s.delivered <;> rcases ht with ht | ht
      · have hty := Transaction.ne_syncedBalance ht
        simp [hd, ht, hty] at ih ⊢
        omega
      · have hm : ¬ t.isMonetary := fun hm ↦ Transaction.ne_syncedBalance hm ht
        simp [hd, ht, hm] at ih ⊢
        omega
      · simp [hd] at ih ⊢
        omega
      · simp [hd] at ih ⊢
        omega

end Site.Inv

/-- **Conservation.**  In every state of an admissible run in which at most `2 ^ 32`
transactions have been accepted, each of them is accounted for. -/
theorem conserved {replicaName privateGroup : String} {numberOfReplicas : ℤ}
    {es : List Site.Event} {s : Site}
    (hadm : Site.machine.Along Site.Admissible
      (Site.new replicaName privateGroup numberOfReplicas) es)
    (hr : Site.machine.run (Site.new replicaName privateGroup numberOfReplicas) es = some s)
    (hlen : s.accepted.length ≤ 2 ^ 32) : Conserved s := by
  have h : s.Inv := .of_run hadm hr
  refine ⟨fun t ht hm ↦ ?_,
    fun t ht _ ↦ ⟨h.onceIn_outstanding hlen ht, h.notIn_outstanding hlen ht⟩,
    h.accepted_length hlen, h.numbered.outstandingCounter_eq, h.orderCounter_eq⟩
  by_cases hd : t ∈ s.delivered
  · exact .inr ⟨h.onceIn_executedList hlen ht hm hd, h.notIn_outstanding hlen ht hd⟩
  · exact .inl ⟨h.onceIn_outstanding hlen ht hd, h.notIn_executedList hlen ht hd⟩

open Process (deposited syncedBalance counted)

/-- In the example a delivered message is a copy of something the process has accepted, or the
first transaction of another one. -/
def Site.Shared (s : Site) : Site.Event → Prop
  | .command input => ¬ isCleanHistory input
  | .deliver t => t ∈ s.accepted ∨ s.replicaName = "Rep1" ∧ t.uniqueId = uniqueId "Rep2" 0

instance (s : Site) : DecidablePred s.Shared
  | .command input => inferInstanceAs (Decidable (¬ isCleanHistory input))
  | .deliver t => inferInstanceAs (Decidable
      (t ∈ s.accepted ∨ s.replicaName = "Rep1" ∧ t.uniqueId = uniqueId "Rep2" 0))

theorem Site.Shared.admissible (s : Site) (e : Site.Event) (h : s.Shared e) : s.Admissible e := by
  cases e with
  | command input => exact h
  | deliver t =>
      refine fun _ ↦ h.imp_right fun ⟨hname, hid⟩ hissued ↦ ?_
      have hother : Issued "Rep2" t := ⟨0, hid⟩
      exact absurd ((hissued.name_eq hother rfl).symm.trans hname) (by decide)

/-- A replica with a deposit, interest and a synced balance on their way in turn.  Copies come in
the other order and more than once, and a deposit of another replica comes in between. -/
def workday : List Site.Event :=
  [.command "deposit 100", .command "addInterest 10", .deliver (deposited "Rep2" 0 7),
    .deliver { uniqueId := "Rep1 1", command := "addInterest 10", percent := 10,
               type := .interest },
    .command "deposit 5", .deliver (deposited "Rep1" 2 5), .deliver (deposited "Rep1" 0 100),
    .command "getSyncedBalance", .deliver (deposited "Rep1" 0 100),
    .deliver { uniqueId := "Rep1 3", command := "getSyncedBalance", type := .syncedBalance },
    .deliver (deposited "Rep2" 0 7), .command "deposit 1"]

theorem conserved_workday : ∃ s, Site.machine.run (.new "Rep1" "#Rep1" 2) workday = some s ∧
    s.accepted.length = 5 ∧ s.replica.executedList.length = 4 ∧ Conserved s := by
  have hadm : Site.machine.Along Site.Shared (.new "Rep1" "#Rep1" 2) workday := by decide +kernel
  have h : (Site.machine.run (.new "Rep1" "#Rep1" 2) workday).any fun s ↦
      s.accepted.length = 5 ∧ s.replica.executedList.length = 4 := by decide +kernel
  obtain ⟨s, hs, h⟩ := (Option.any_eq_true _ _).mp h
  obtain ⟨hlen, hexecuted⟩ := of_decide_eq_true h
  exact ⟨s, hs, hlen, hexecuted,
    conserved (hadm.mono Site.Shared.admissible) hs (by rw [hlen]; decide)⟩

/-! ## Beyond `2 ^ 32` transactions -/

/-- A synced balance is queued and delivered, when `n` transactions have been accepted. -/
def Site.syncedRound (n : ℕ) : List Site.Event :=
  [.command "getSyncedBalance", .deliver (syncedBalance "Rep1" (counted n))]

/-- A deposit is executed, `k` synced balances come and go, and the deposit is made again. -/
def comesAround (k : ℕ) : List Site.Event :=
  [.command "deposit 1", .deliver (deposited "Rep1" 0 1)] ++
    (List.range' 1 k).flatMap Site.syncedRound ++
    [.command "deposit 1", .deliver (deposited "Rep1" 0 1)]

/-- A site with an executed deposit and nothing outstanding. -/
structure Site.Idle (s : Site) (n : ℕ) : Prop where
  reads : s.process.Reads "Rep1" (counted n) [deposited "Rep1" 0 1] n

/-- The machine goes through some events that are admissible. -/
def Site.Goes (s : Site) (es : List Site.Event) (s' : Site) : Prop :=
  Site.machine.Along Site.Admissible s es ∧ Site.machine.run s es = some s'

namespace Site

variable {s s₁ s₂ : Site} {es fs : List Site.Event} {n : ℕ}

theorem Goes.append (h : s.Goes es s₁) (h' : s₁.Goes fs s₂) : s.Goes (es ++ fs) s₂ := by
  refine ⟨Machine.along_append.mpr ⟨h.1, fun t ht ↦ ?_⟩, Machine.run_append.mpr ⟨s₁, h.2, h'.2⟩⟩
  obtain rfl := Option.some.inj (h.2.symm.trans ht)
  exact h'.1

/-- A command is processed, and something that is then outstanding is delivered. -/
theorem goes_command_deliver {input : String} {t : Transaction} {p : Process}
    (hp : (s.process.act (.command input)).1 = p) (hclean : ¬ isCleanHistory input)
    (hout : s.process.outstanding = []) (ht : t ∈ p.outstanding) :
    s.Goes [.command input, .deliver t]
      ⟨p.receive ⟨t, false, false⟩, s.delivered ++ [t]⟩ := by
  subst hp
  refine ⟨⟨hclean, fun s₁ hs₁ ↦ ⟨fun _ ↦ Or.inl ?_, fun _ _ ↦ trivial⟩⟩, rfl⟩
  obtain rfl := Option.some.inj hs₁
  exact Process.outstanding_act_subset (.command input) (hout ▸ List.nil_subset _) ht

/-- A round advances the counter and leaves everything else as it was. -/
theorem Idle.syncedRound (h : s.Idle n) (hn : 0 < n) (hlt : n < 2 ^ 32) :
    ∃ s', s.Goes (Site.syncedRound n) s' ∧ s'.Idle (n + 1) := by
  have hreads := h.reads.getSyncedBalance rfl
  have hout : s.process.outstanding = [] := congrArg Client.outstandingCollection h.reads.replica
  refine ⟨_, goes_command_deliver rfl (by decide +kernel) hout ?_, ⟨?_⟩⟩
  · rw [Process.outstanding, hreads.replica]
    exact List.mem_singleton_self _
  · have hr := hreads.receive_syncedBalance
      (q := ⟨syncedBalance "Rep1" (counted n), false, false⟩) rfl
      (Process.uniqueId_notMem_counted hn hlt)
    exact Process.removeOutstanding_counted n ▸ hr

theorem Idle.syncedRounds (k : ℕ) (h : s.Idle n) (hn : 0 < n) (hk : n + k ≤ 2 ^ 32) :
    ∃ s', s.Goes ((List.range' n k).flatMap Site.syncedRound) s' ∧ s'.Idle (n + k) := by
  induction k generalizing s n with
  | zero => exact ⟨s, ⟨trivial, rfl⟩, h⟩
  | succ k ih =>
      obtain ⟨s₁, hs₁, h₁⟩ := h.syncedRound hn (by omega)
      obtain ⟨s₂, hs₂, h₂⟩ := ih h₁ (by omega) (by omega)
      refine ⟨s₂, ?_, ?_⟩
      · rw [List.range'_succ, List.flatMap_cons]
        exact hs₁.append hs₂
      · rwa [show n + (k + 1) = n + 1 + k by omega]

/-- The deposit is executed. -/
theorem goes_first : ∃ s, (Site.new "Rep1" "#Rep1" 1).Goes
    [.command "deposit 1", .deliver (deposited "Rep1" 0 1)] s ∧ s.Idle 1 := by
  have hreads : (Site.new "Rep1" "#Rep1" 1).process.Reads "Rep1" ⟨0, [], [], 0, 0⟩ [] 0 :=
    ⟨rfl, rfl, rfl, rfl, rfl⟩
  have hline : Process.DepositLine "deposit 1" 1 := by decide +kernel
  have hdeposit := hreads.deposit hline
  refine ⟨_, goes_command_deliver rfl (by decide +kernel) rfl ?_, ⟨?_⟩⟩
  · rw [Process.outstanding, hdeposit.replica]
    exact List.mem_singleton_self _
  · have hr := hdeposit.receive_deposit (q := ⟨deposited "Rep1" 0 1, false, false⟩) rfl
    have hclient : Client.deposit (Client.addOutstandingCollection ⟨0, [], [], 0, 0⟩
        (deposited "Rep1" 0 1)) (deposited "Rep1" 0 1) 1 = counted 1 := by decide +kernel
    exact hclient ▸ hr

/-- Once the counter is back at 0, the deposit gets the id that it had before. -/
theorem Idle.last (h : s.Idle (2 ^ 32)) : ∃ s',
    s.Goes [.command "deposit 1", .deliver (deposited "Rep1" 0 1)] s' ∧
      s'.process.Reads "Rep1" ⟨1, [deposited "Rep1" 0 1], [deposited "Rep1" 0 1], 1, 1⟩
        [deposited "Rep1" 0 1, deposited "Rep1" 0 1] (2 ^ 32 + 1) := by
  have hreads := h.reads
  rw [counted, AtomicInteger.after_two_pow] at hreads
  have hline : Process.DepositLine "deposit 1" 1 := by decide +kernel
  have hdeposit := hreads.deposit hline
  have hout : s.process.outstanding = [] := congrArg Client.outstandingCollection hreads.replica
  refine ⟨_, goes_command_deliver rfl (by decide +kernel) hout ?_, ?_⟩
  · rw [Process.outstanding, hdeposit.replica]
    exact List.mem_singleton_self _
  · exact hdeposit.receive_of_mem (by decide +kernel)

end Site

/-- After one deposit and `2 ^ 32 - 1` synced balances the deposit is made again, with the id of
the first one, so it is discarded when it is delivered.  It is in both lists, and the counter has
come back to 1. -/
theorem not_conserved_comesAround :
    Site.machine.Along Site.Admissible (.new "Rep1" "#Rep1" 1) (comesAround (2 ^ 32 - 1)) ∧
    ∃ s, Site.machine.run (.new "Rep1" "#Rep1" 1) (comesAround (2 ^ 32 - 1)) = some s ∧
      deposited "Rep1" 0 1 ∈ s.accepted ∧
      s.replica.outstandingCollection = [deposited "Rep1" 0 1] ∧
      s.replica.executedList = [deposited "Rep1" 0 1] ∧
      s.accepted.length = 2 ^ 32 + 1 ∧ s.replica.outstandingCounter.toInt = 1 ∧
      ¬ Conserved s := by
  obtain ⟨s₁, hs₁, h₁⟩ := Site.goes_first
  obtain ⟨s₂, hs₂, h₂⟩ := h₁.syncedRounds (2 ^ 32 - 1) (by omega) (by omega)
  rw [show 1 + (2 ^ 32 - 1) = 2 ^ 32 by omega] at h₂
  obtain ⟨s₃, hs₃, h₃⟩ := h₂.last
  obtain ⟨halong, hrun⟩ := (hs₁.append hs₂).append hs₃
  have haccepted : deposited "Rep1" 0 1 ∈ s₃.accepted := by
    have hmem : deposited "Rep1" 0 1 ∈ monetary s₃.process.accepted := by
      rw [h₃.monetary]
      exact List.mem_cons_self
    exact (mem_monetary.mp hmem).1
  have hout : s₃.replica.outstandingCollection = [deposited "Rep1" 0 1] :=
    congrArg Client.outstandingCollection h₃.replica
  have hexecuted : s₃.replica.executedList = [deposited "Rep1" 0 1] :=
    congrArg Client.executedList h₃.replica
  refine ⟨halong, s₃, hrun, haccepted, hout, hexecuted, h₃.length, ?_, fun hc ↦ ?_⟩
  · rw [Site.replica, h₃.replica]
    rfl
  · rcases hc.monetary _ haccepted rfl with ⟨-, hnot⟩ | ⟨-, hnot⟩
    · rw [hexecuted] at hnot
      exact hnot (by decide +kernel)
    · rw [hout] at hnot
      exact hnot (by decide +kernel)

end ReplicatedBank
