import ReplicatedBank.Distributed.Interleaving
import ReplicatedBank.Ledger

/-!
# The state transferred to a new replica

When a group outgrows its `numberOfReplicas`, every member sends a process that joins its
balance and then all its executed transactions.  The new process installs the first
balance it is delivered and executes the first copy of every transaction that follows,
whatever the interleaving of the members' streams (`balance_joined`,
`executedList_joined`).  The transferred balance contains the effects of the transferred
transactions already, so the new process has them twice; `joined_iff` says when this does
not show.
-/

namespace ReplicatedBank

open Distributed

open AdvancedListener (membershipMessageReceived regularMessageReceived updateBalance)

/-- A member that a joining process outgrows, with its balance and executed transactions. -/
structure Member (info : MembershipInfo) (b : ℚ) (ts : List Transaction)
    (m : ReplicatedStateMachine) : Prop where
  balance_eq : m.replica.balance = b
  executedList_eq : m.replica.executedList = ts
  outstanding_eq : m.replica.outstandingCollection = []
  not_joined : info.joined ≠ some m.privateGroup
  outgrown : m.numberOfReplicas < info.members.length

/-- The new process once it has been told of its own joining. -/
def joiner (info : MembershipInfo) (replicaName privateGroup : String) (numberOfReplicas : ℤ) :
    ReplicatedStateMachine :=
  (membershipMessageReceived (.new replicaName privateGroup numberOfReplicas) info).1

/-- The new process once it has been delivered what the members have sent. -/
def joined (info : MembershipInfo) (replicaName privateGroup : String) (numberOfReplicas : ℤ)
    (deliveries : List Transaction) : ReplicatedStateMachine :=
  deliveries.foldl regularMessageReceived (joiner info replicaName privateGroup numberOfReplicas)

variable {info : MembershipInfo} {b : ℚ} {ts deliveries : List Transaction}
variable {ms : List ReplicatedStateMachine} {m : ReplicatedStateMachine}
variable {replicaName privateGroup : String} {numberOfReplicas : ℤ}

/-- What a member sends: an `UPDATE_BALANCE` with its balance, and its executed
transactions. -/
theorem Member.sent_eq (h : Member info b ts m) (hjoin : info.isCausedByJoin) :
    ∃ u, (membershipMessageReceived m info).2 = u :: ts ∧ u.type = .updateBalance ∧
      u.balance = b := by
  refine ⟨updateBalance m, ?_, rfl, h.balance_eq⟩
  rw [AdvancedListener.membershipMessageReceived_sent, if_pos ⟨hjoin, h.not_joined⟩,
    if_pos h.outgrown, h.executedList_eq]

theorem ledger_joined : (joined info replicaName privateGroup numberOfReplicas deliveries).ledger =
    deliveries.foldl Ledger.deliver .empty := by
  have hfoldl : ∀ m : ReplicatedStateMachine,
      (deliveries.foldl regularMessageReceived m).ledger =
        deliveries.foldl Ledger.deliver m.ledger := by
    intro m
    induction deliveries generalizing m with
    | nil => rfl
    | cons t ts ih =>
        rw [List.foldl_cons, List.foldl_cons, ih,
          ReplicatedStateMachine.ledger_regularMessageReceived]
  rw [joined, hfoldl, joiner, ReplicatedStateMachine.ledger_membershipMessageReceived]
  rfl

section

variable (hms : ms ≠ []) (hmem : ∀ m ∈ ms, Member info b ts m) (hjoin : info.isCausedByJoin)
  (hts : ∀ t ∈ ts, t.isMonetary) (hids : (ids ts).Nodup)
  (hd : Interleaving (ms.map fun m ↦ (membershipMessageReceived m info).2) deliveries)

include hms hmem hjoin hts hids hd

/-- However the streams are interleaved, every transaction is executed once. -/
theorem executedList_joined :
    (joined info replicaName privateGroup numberOfReplicas deliveries).replica.executedList =
      ts := by
  have hfilter : ∀ s ∈ (ms.map fun m ↦ (membershipMessageReceived m info).2).map
      (List.filter Transaction.isMonetary), s = ts := by
    intro s hs
    rw [List.map_map, List.mem_map] at hs
    obtain ⟨m, hm, rfl⟩ := hs
    obtain ⟨u, hu, hty, -⟩ := (hmem m hm).sent_eq hjoin
    rw [Function.comp_apply, hu,
      List.filter_cons_of_neg fun hm ↦ Transaction.ne_updateBalance hm hty]
    exact List.filter_eq_self.mpr hts
  have h : (joined info replicaName privateGroup numberOfReplicas deliveries).ledger.executed =
      _ := congrArg Ledger.executed ledger_joined
  rw [Ledger.executed_foldl rfl] at h
  exact h.trans ((hd.filter _).firstCopies_eq hids hfilter (by simpa using hms))

/-- The first delivery installs a member's balance, and the transactions come on top. -/
theorem balance_joined :
    (joined info replicaName privateGroup numberOfReplicas deliveries).replica.balance =
      effects ts b := by
  have hexec : (joined info replicaName privateGroup numberOfReplicas
      deliveries).replica.executedList = ts := executedList_joined hms hmem hjoin hts hids hd
  have hledger : (joined info replicaName privateGroup numberOfReplicas deliveries).ledger = _ :=
    ledger_joined
  cases deliveries with
  | nil =>
      obtain ⟨m, hm⟩ := List.exists_mem_of_ne_nil _ hms
      obtain ⟨u, hu, -⟩ := (hmem m hm).sent_eq hjoin
      exact absurd rfl (hd.ne_nil (List.mem_map_of_mem hm) (by rw [hu]; exact List.cons_ne_nil _ _))
  | cons t r =>
      obtain ⟨l, hl⟩ := hd.exists_cons_mem
      obtain ⟨m, hm, hsent⟩ := List.mem_map.mp hl
      obtain ⟨u, hu, hty, hbal⟩ := (hmem m hm).sent_eq hjoin
      obtain ⟨rfl, -⟩ := List.cons.inj (hu.symm.trans hsent)
      rw [List.foldl_cons, Ledger.deliver_of_installs ⟨hty, rfl, by simp [Ledger.empty]⟩] at hledger
      have hinit : { Ledger.empty with balance := u.balance, initialized := true }.initialized :=
        rfl
      obtain ⟨-, new, hnew, hb⟩ := Ledger.foldl_of_initialized hinit r
      have hts' : new = ts := by
        rw [← hexec]
        exact ((congrArg Ledger.executed hledger).trans hnew).symm
      have hb' := (congrArg Ledger.balance hledger).trans hb
      rw [hts', hbal] at hb'
      exact hb'

/-- **The transferred state.**  The new process has the members' executed transactions; it
has their balance exactly if executing these transactions on it once more makes no
difference. -/
theorem joined_iff :
    ((joined info replicaName privateGroup numberOfReplicas deliveries).replica.balance = b ∧
      (joined info replicaName privateGroup numberOfReplicas deliveries).replica.executedList =
        ts) ↔
      b * (growth ts - 1) + effects ts 0 = 0 := by
  rw [executedList_joined hms hmem hjoin hts hids hd, balance_joined hms hmem hjoin hts hids hd,
    effects_eq]
  simp only [and_true]
  constructor <;> intro h <;> linarith

end

/-! ## Two members, two transactions -/

/-- A third process joins a group of two. -/
def thirdJoins : MembershipInfo where
  isCausedByJoin := true
  isCausedByLeave := false
  isCausedByDisconnect := false
  members := ["#Rep1", "#Rep2", "#Rep3"]
  joined := some "#Rep3"

/-- A deposit of the first replica and interest of the second one. -/
def shared : List Transaction :=
  [{ uniqueId := "Rep1 0", command := "deposit", balance := 100, type := .deposit },
    { uniqueId := "Rep2 0", command := "addInterest 10", percent := 10, type := .interest }]

/-- The two replicas, set up for a group of two, that have executed both. -/
def sharers : List ReplicatedStateMachine :=
  [{ ReplicatedStateMachine.new "Rep1" "#Rep1" 2 with
      replica := ⟨110, shared, [], 2, 1⟩, alreadyInitializedBalance := true },
    { ReplicatedStateMachine.new "Rep2" "#Rep2" 2 with
      replica := ⟨110, shared, [], 2, 1⟩, alreadyInitializedBalance := true }]

/-- What the third process is delivered: the balance of the second replica and its deposit, and
then the stream of the first one before the rest. -/
def interleaved : List Transaction :=
  match sharers.map fun m ↦ (membershipMessageReceived m thirdJoins).2 with
  | [[u, t, t'], [v, w, w']] => [v, w, u, t, t', w']
  | _ => []

theorem interleaving_sharers :
    Interleaving (sharers.map fun m ↦ (membershipMessageReceived m thirdJoins).2) interleaved := by
  have hthree : ∀ u t t' v w w' : Transaction,
      Interleaving [[u, t, t'], [v, w, w']] [v, w, u, t, t', w'] := by
    intro u t t' v w w'
    have h₁ : Interleaving ([[]] ++ [w'] :: []) [w'] := .next (.nil (by simp))
    have h₂ : Interleaving ([] ++ [t'] :: [[w']]) [t', w'] := .next h₁
    have h₃ : Interleaving ([] ++ [t, t'] :: [[w']]) [t, t', w'] := .next h₂
    have h₄ : Interleaving ([] ++ [u, t, t'] :: [[w']]) [u, t, t', w'] := .next h₃
    have h₅ : Interleaving ([[u, t, t']] ++ [w, w'] :: []) [w, u, t, t', w'] := .next h₄
    exact .next h₅
  exact hthree _ _ _ _ _ _

theorem joined_iff_sharers :
    ((joined thirdJoins "Rep3" "#Rep3" 2 interleaved).replica.balance = 110 ∧
      (joined thirdJoins "Rep3" "#Rep3" 2 interleaved).replica.executedList = shared) ↔
      (110 : ℚ) * (growth shared - 1) + effects shared 0 = 0 :=
  joined_iff (show sharers ≠ [] from List.cons_ne_nil _ _)
    (by simpa [sharers] using ⟨⟨rfl, rfl, rfl, by decide, by decide⟩,
      ⟨rfl, rfl, rfl, by decide, by decide⟩⟩) rfl (by decide) (by decide) interleaving_sharers

/-! ## One member, one deposit -/

/-- The second process joins the group of the first. -/
def secondJoins : MembershipInfo where
  isCausedByJoin := true
  isCausedByLeave := false
  isCausedByDisconnect := false
  members := ["#Rep1", "#Rep2"]
  joined := some "#Rep2"

/-- The deposit that has made its balance. -/
def foundingDeposit : Transaction where
  uniqueId := "Rep1 0"
  command := "deposit"
  balance := 100
  type := .deposit

/-- The first process, set up for a group of one, has executed a deposit. -/
def founder : ReplicatedStateMachine :=
  { ReplicatedStateMachine.new "Rep1" "#Rep1" 1 with
    replica := ⟨100, [foundingDeposit], [], 1, 1⟩
    alreadyInitializedBalance := true }

theorem member_founder : Member secondJoins 100 [foundingDeposit] founder :=
  ⟨rfl, rfl, rfl, by decide, by decide⟩

/-- The new process ends up with twice the balance of the group. -/
theorem not_joined_founder :
    (∀ m ∈ [founder], Member secondJoins 100 [foundingDeposit] m) ∧
    Interleaving ([founder].map fun m ↦ (membershipMessageReceived m secondJoins).2)
      (membershipMessageReceived founder secondJoins).2 ∧
    (joined secondJoins "Rep2" "#Rep2" 2
      (membershipMessageReceived founder secondJoins).2).replica.balance = 200 :=
  ⟨by simpa using member_founder, .single _, by decide +kernel⟩

end ReplicatedBank
