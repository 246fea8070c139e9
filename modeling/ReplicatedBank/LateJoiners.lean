import ReplicatedBank.SharedIds

/-!
# What late joiners know

A process that joins is sent the history only by those members whose `numberOfReplicas` the
group outgrows, and this number does not follow the group: it starts at what a member was
told to wait for, rises to the size of the group at every joining, and stays there when
others leave.  A process that replaces another one is sent a balance and no transactions.

Two members at one point have executed the same transactions if those ordered between their
joinings have been ordered again since the second one.  `HandedDown` says where the copies
come from: a member that the group had outgrown (`Supplies`), or a message that was not sent
because of the joining (`Repeated`).  What a member has sent is described by `HistoryInv`,
which relates it to the log: whom the group had outgrown can be read off the memberships
(`Outgrown`).
-/

namespace ReplicatedBank

open Distributed
open Distributed.TotalOrder (Entry Proc State Event WellFormed Holds Joined react)

variable {ι : Type*}

/-- The ids of the `DEPOSIT`s and `INTEREST`s ordered since a position. -/
def orderedSince (joined : ℕ) (entries : List (Entry ι Packet)) : List String :=
  ids (monetary (messages (entries.drop joined)))

/-- A message sent because of the joining at a position. -/
def IsAnswer (joined : ℕ) : Entry ι Packet → Prop
  | .message _ w q => q.stateTransfer ∧ w = joined
  | .view _ => False

instance (joined : ℕ) : DecidablePred (IsAnswer (ι := ι) joined)
  | .message _ w q => inferInstanceAs (Decidable (q.stateTransfer ∧ w = joined))
  | .view _ => instDecidableFalse

/-- The state transfer to a process is complete: every member has been told of its joining
and has nothing left to send because of it, and what was sent has been delivered to it. -/
structure Transferred (s : State ι Process Packet) (r : Proc Process Packet) : Prop where
  told : ∀ k ∈ s.members, ∀ pk ∈ s.proc k,
    r.joined < pk.position ∧ ∀ y ∈ pk.outbox, ¬ (y.2.stateTransfer ∧ y.1 = r.joined)
  delivered : ∀ x ∈ s.log.drop r.position, ¬ IsAnswer r.joined x

/-- The size of the group in the membership at a position. -/
def sizeAt (entries : List (Entry ι Packet)) (u : ℕ) : ℕ :=
  ((entries[u]?.bind Entry.view?).map (·.members.length)).getD 0

/-- A size that a member does not expect: larger than the number of replicas it was started
with, and larger than the group at the joinings of others it has been told of. -/
structure Outgrown (D : Deployment ι) (k : ι) (entries : List (Entry ι Packet)) (size : ℕ) :
    Prop where
  started : D.numberOfReplicas k < size
  joined : ∀ x ∈ entries, ∀ v ∈ x.view?, v.cause = .join → v.subject ≠ k → v.members.length < size

section

variable [DecidableEq ι]

/-- Any two members at one position, each with its state transfer complete, have executed
transactions with the same ids. -/
def SameExecuted (s : State ι Process Packet) : Prop :=
  ∀ i j p r, s.member? i = some p → s.member? j = some r → p.position = r.position →
    Transferred s p → Transferred s r →
    ∀ x, x ∈ ids p.node.machine.replica.executedList ↔ x ∈ ids r.node.machine.replica.executedList

/-- A process hands a transaction down to the one that joined at a position: it had been
delivered the transaction, the group outgrew it with that joining, and its answer with the
transaction was not lost when it went. -/
structure Supplies (D : Deployment ι) (s : State ι Process Packet) (joined : ℕ) (x : String)
    (k : ι) (pk : Proc Process Packet) : Prop where
  proc : s.proc k = some pk
  known : x ∈ orderedSince pk.joined (s.log.take joined)
  outgrown : Outgrown D k ((s.log.take joined).drop pk.joined) (sizeAt s.log joined)
  told : joined < pk.position
  kept : ∀ y ∈ pk.outbox, y.2.stateTransfer → y.1 = joined → y.2.transaction.isMonetary →
    y.2.transaction.uniqueId ≠ x

/-- A process has been delivered a copy of a transaction that was not sent because of its
joining. -/
def Repeated (s : State ι Process Packet) (r : Proc Process Packet) (x : String) : Prop :=
  x ∈ ids (monetary (messages ((s.delivered r).filter (¬ IsAnswer r.joined ·))))

/-- Whatever was ordered between the joinings of two such members has been handed down to the
second one, or repeated. -/
def HandedDown (D : Deployment ι) (s : State ι Process Packet) : Prop :=
  ∀ i j p r, s.member? i = some p → s.member? j = some r → p.position = r.position →
    Transferred s p → Transferred s r → p.joined < r.joined →
    ∀ x ∈ orderedSince p.joined (s.log.take r.joined),
      Repeated s r x ∨ ∃ k pk, Supplies D s r.joined x k pk

end

/-- What `checkTxStatus` answers on a line `input` about an id. -/
def ReplicatedStateMachine.txStatus (m : ReplicatedStateMachine) (input transactionId : String) :
    String :=
  match m.replica.executedList.find? (·.uniqueId = transactionId) with
  | some executed => executed.command ++ " is executed"
  | none => input ++ " has not been executed yet"

/-- Any two such members give the same answers. -/
def SameAnswers [DecidableEq ι] (s : State ι Process Packet) : Prop :=
  ∀ i j p r, s.member? i = some p → s.member? j = some r → p.position = r.position →
    Transferred s p → Transferred s r →
    ∀ input x, p.node.machine.txStatus input x = r.node.machine.txStatus input x

/-! ## Outgrowing a member -/

section

variable {D : Deployment ι} {i k : ι} {past : List (Entry ι Packet)} {size joined : ℕ}
variable {x : Entry ι Packet}

theorem mem_ids_monetary_messages {entries : List (Entry ι Packet)} {id : String} :
    id ∈ ids (monetary (messages entries)) ↔ ∃ (k : ι) (w : ℕ) (q : Packet),
      .message k w q ∈ entries ∧ q.transaction.isMonetary ∧ q.transaction.uniqueId = id := by
  simp only [mem_ids, mem_monetary, mem_messages]
  constructor
  · rintro ⟨t, ⟨⟨u, k, w, q, hu, rfl⟩, hm⟩, hid⟩
    exact ⟨k, w, q, List.mem_of_getElem? hu, hm, hid⟩
  · rintro ⟨k, w, q, hmem, hm, hid⟩
    obtain ⟨u, hu⟩ := List.getElem?_of_mem hmem
    exact ⟨q.transaction, ⟨⟨u, k, w, q, hu, rfl⟩, hm⟩, hid⟩

theorem orderedSince_take_self (joined : ℕ) (entries : List (Entry ι Packet)) :
    orderedSince joined (entries.take joined) = [] := by
  rw [orderedSince, List.drop_eq_nil_of_le (List.length_take_le _ _)]
  rfl

theorem outgrown_nil : Outgrown D k [] size ↔ D.numberOfReplicas k < size :=
  ⟨Outgrown.started, fun h ↦ ⟨h, fun _ hx ↦ absurd hx List.not_mem_nil⟩⟩

theorem outgrown_concat : Outgrown D k (past ++ [x]) size ↔ Outgrown D k past size ∧
    ∀ v ∈ x.view?, v.cause = .join → v.subject ≠ k → v.members.length < size := by
  constructor
  · intro h
    obtain ⟨hpast, hx⟩ := List.forall_mem_append.mp h.joined
    exact ⟨⟨h.started, hpast⟩, hx x (List.mem_singleton_self x)⟩
  · rintro ⟨h, hx⟩
    refine ⟨h.started, List.forall_mem_append.mpr ⟨h.joined, fun y hy ↦ ?_⟩⟩
    exact List.mem_singleton.mp hy ▸ hx

@[simp] theorem sizeAt_append_of_lt {u : ℕ} (h : u < past.length) :
    sizeAt (past ++ [x]) u = sizeAt past u := by
  rw [sizeAt, sizeAt, List.getElem?_append_left h]

theorem sizeAt_concat_view (v : View ι) :
    sizeAt (past ++ [.view v]) past.length = v.members.length := by
  simp [sizeAt, Entry.view?]

end

/-! ## What members send -/

/-- No answer has two copies of one transaction. -/
def OncePerAnswer (y z : ℕ × Packet) : Prop :=
  y.2.stateTransfer → z.2.stateTransfer → y.2.transaction.isMonetary →
    z.2.transaction.isMonetary → y.1 = z.1 → y.2.transaction.uniqueId ≠ z.2.transaction.uniqueId

/-- What holds of a process and of what it has sent because of the joinings of others: its
whole history if the group has outgrown it, and no transaction otherwise. -/
structure HistoryInv (D : Deployment ι) (i : ι) (joined : ℕ) (past : List (Entry ι Packet))
    (p : Process) (sent : List (ℕ × Packet)) : Prop where
  ledger : p.ledger = (messages (past.drop joined)).foldl Ledger.deliver .empty
  privateGroup : p.machine.privateGroup = D.privateGroup i
  outgrown : ∀ size : ℕ, p.machine.numberOfReplicas < size ↔ Outgrown D i (past.drop joined) size
  resent : ∀ w q, (w, q) ∈ sent → q.stateTransfer → q.transaction.isMonetary →
    w < past.length ∧ q.transaction.uniqueId ∈ orderedSince joined (past.take w) ∧
      Outgrown D i ((past.take w).drop joined) (sizeAt past w)
  once : sent.Pairwise OncePerAnswer
  answered : ∀ w v, joined ≤ w → past[w]? = some (.view v) → v.cause = .join → v.subject ≠ i →
    Outgrown D i ((past.take w).drop joined) v.members.length →
    ∀ x ∈ orderedSince joined (past.take w), ∃ q, (w, q) ∈ sent ∧ q.stateTransfer ∧
      q.transaction.isMonetary ∧ q.transaction.uniqueId = x

/-- What a process sends when it is delivered an entry. -/
structure Answers (D : Deployment ι) (i : ι) (joined : ℕ) (past : List (Entry ι Packet))
    (x : Entry ι Packet) (more : List (ℕ × Packet)) : Prop where
  resent : ∀ y ∈ more, y.2.stateTransfer → y.2.transaction.isMonetary → y.1 = past.length ∧
    y.2.transaction.uniqueId ∈ orderedSince joined past ∧
      ∃ v, x = .view v ∧ Outgrown D i (past.drop joined) v.members.length
  once : more.Pairwise OncePerAnswer
  answered : ∀ v, x = .view v → v.cause = .join → v.subject ≠ i →
    Outgrown D i (past.drop joined) v.members.length →
    ∀ x ∈ orderedSince joined past, ∃ q, (past.length, q) ∈ more ∧ q.stateTransfer ∧
      q.transaction.isMonetary ∧ q.transaction.uniqueId = x

namespace HistoryInv

variable {D : Deployment ι} {i : ι} {joined : ℕ} {past : List (Entry ι Packet)}
variable {p p' : Process} {sent more : List (ℕ × Packet)}

theorem fresh (D : Deployment ι) (i : ι) (past : List (Entry ι Packet)) :
    HistoryInv D i past.length past (D.fresh i) [] where
  ledger := by simp [Deployment.fresh, Process.ledger_new]
  privateGroup := rfl
  outgrown size := by
    rw [List.drop_length, outgrown_nil]
    exact Iff.rfl
  resent _ _ hq := absurd hq List.not_mem_nil
  once := List.Pairwise.nil
  answered w v hw hv := by
    rw [List.getElem?_eq_none hw] at hv
    cases hv

theorem executedList_eq (h : HistoryInv D i joined past p sent) :
    p.machine.replica.executedList =
      firstCopies Transaction.uniqueId (monetary (messages (past.drop joined))) := by
  have hexecuted : p.machine.replica.executedList = p.ledger.executed := rfl
  rw [hexecuted, h.ledger, Ledger.executed_foldl rfl]

theorem mem_ids_executedList (h : HistoryInv D i joined past p sent) {x : String} :
    x ∈ ids p.machine.replica.executedList ↔ x ∈ orderedSince joined past := by
  rw [h.executedList_eq]
  exact mem_map_firstCopies

/-- An entry is delivered. -/
theorem extend (h : HistoryInv D i joined past p sent) (hle : joined ≤ past.length)
    {x : Entry ι Packet} (hledger : p'.ledger = (messages [x]).foldl Ledger.deliver p.ledger)
    (hprivate : p'.machine.privateGroup = p.machine.privateGroup)
    (hnumber : ∀ size : ℕ, p'.machine.numberOfReplicas < size ↔ p.machine.numberOfReplicas < size ∧
      ∀ v ∈ x.view?, v.cause = .join → v.subject ≠ i → v.members.length < size)
    (hmore : Answers D i joined past x more) :
    HistoryInv D i joined (past ++ [x]) p' (sent ++ more) := by
  have htake : ∀ {w}, w ≤ past.length → (past ++ [x]).take w = past.take w := fun hw ↦
    List.take_append_of_le_length hw
  refine
    { ledger := ?_
      privateGroup := hprivate.trans h.privateGroup
      outgrown := ?_
      resent := ?_
      once := ?_
      answered := ?_ }
  · rw [hledger, h.ledger, List.drop_append_of_le_length hle, messages_append, List.foldl_append]
  · intro size
    rw [hnumber, h.outgrown, List.drop_append_of_le_length hle, outgrown_concat]
  · intro w q hq hst hm
    rw [List.length_append, List.length_singleton]
    rcases List.mem_append.mp hq with hq | hq
    · obtain ⟨hw, hknown, hout⟩ := h.resent w q hq hst hm
      rw [htake hw.le, sizeAt_append_of_lt hw]
      exact ⟨by omega, hknown, hout⟩
    · obtain ⟨rfl, hknown, v, rfl, hout⟩ := hmore.resent _ hq hst hm
      rw [htake le_rfl, List.take_length, sizeAt_concat_view]
      exact ⟨by omega, hknown, hout⟩
  · refine List.pairwise_append.mpr ⟨h.once, hmore.once, fun y hy z hz hyst hzst hym hzm heq ↦ ?_⟩
    -- the new answer has a position of its own
    have hy := (h.resent y.1 y.2 hy hyst hym).1
    have hz := (hmore.resent z hz hzst hzm).1
    omega
  · intro w v hw hv hjoin hsubject hout id hid
    rcases TotalOrder.getElem?_concat_eq_some.mp hv with hv | ⟨rfl, rfl⟩
    · have hlt := (List.getElem?_eq_some_iff.mp hv).1
      rw [htake hlt.le] at hout hid
      obtain ⟨q, hq, hst⟩ := h.answered w v hw hv hjoin hsubject hout id hid
      exact ⟨q, List.mem_append_left _ hq, hst⟩
    · rw [htake le_rfl, List.take_length] at hout hid
      obtain ⟨q, hq, hst⟩ := hmore.answered v rfl hjoin hsubject hout id hid
      exact ⟨q, List.mem_append_right _ hq, hst⟩

/-- Local actions other than `cleanHistory`. -/
theorem act (h : HistoryInv D i joined past p sent) {a : Action} (ha : ¬ a.isCleanHistory) :
    HistoryInv D i joined past (p.act a).1
      (sent ++ TotalOrder.stamped past.length (p.act a).2) := by
  have hsame := p.sameSetting_act a
  have hplain : ∀ y ∈ TotalOrder.stamped past.length (p.act a).2, ¬ y.2.stateTransfer := by
    intro y hy
    obtain ⟨-, hq⟩ := TotalOrder.mem_stamped.mp hy
    obtain ⟨t, -, hwrap⟩ := List.mem_map.mp ((p.act_isPrefix a).subset hq)
    rw [← hwrap]
    exact Bool.false_ne_true
  refine
    { ledger := (Process.ledger_act ha).trans h.ledger
      privateGroup := hsame.privateGroup.trans h.privateGroup
      outgrown := ?_
      resent := ?_
      once := ?_
      answered := ?_ }
  · intro size
    rw [hsame.numberOfReplicas]
    exact h.outgrown size
  · intro w q hq hst
    rcases List.mem_append.mp hq with hq | hq
    · exact h.resent w q hq hst
    · exact absurd hst (hplain _ hq)
  · refine List.pairwise_append.mpr ⟨h.once, ?_, fun y _ z hz _ hst ↦ absurd hst (hplain z hz)⟩
    exact List.pairwise_of_forall_mem_list fun y _ z hz _ hst ↦ absurd hst (hplain z hz)
  · intro w v hw hv hjoin hsubject hout x hx
    obtain ⟨q, hq, hst⟩ := h.answered w v hw hv hjoin hsubject hout x hx
    exact ⟨q, List.mem_append_left _ hq, hst⟩

/-- A message. -/
theorem receive (h : HistoryInv D i joined past p sent) (hle : joined ≤ past.length) (k : ι)
    (w : ℕ) (q : Packet) :
    HistoryInv D i joined (past ++ [.message k w q]) (p.receive q) (sent ++ []) := by
  have hsame := AdvancedListener.sameProcess_regularMessageReceived p.machine q.transaction
  refine h.extend hle Process.ledger_receive hsame.privateGroup (fun size ↦ ?_) ?_
  · rw [show (p.receive q).machine.numberOfReplicas = _ from hsame.numberOfReplicas]
    simp [Entry.view?]
  · exact ⟨fun y hy ↦ absurd hy List.not_mem_nil, List.Pairwise.nil, fun v hv ↦ by cases hv⟩

/-- Whether a membership reports that another process has joined. -/
theorem joined_ne_iff (h : HistoryInv D i joined past p sent) (v : View ι) :
    ((Process.membershipInfo D.privateGroup v).isCausedByJoin ∧
      (Process.membershipInfo D.privateGroup v).joined ≠ some p.machine.privateGroup) ↔
      v.cause = .join ∧ v.subject ≠ i := by
  rw [h.privateGroup]
  by_cases hjoin : v.cause = .join
  · simp [Process.membershipInfo, hjoin, D.privateGroup_injective.eq_iff]
  · simp [Process.membershipInfo, hjoin]

/-- **What a process sends** when it is told of a membership: its history if another process
has joined and the group has outgrown it, and no transactions otherwise. -/
theorem view_sent_cases (h : HistoryInv D i joined past p sent) (v : View ι) :
    ∃ ts, (p.view D.privateGroup v).2 = p.wrap true ts ∧
      (v.cause = .join ∧ v.subject ≠ i ∧ p.machine.numberOfReplicas < v.members.length ∧
        monetary ts = p.machine.replica.executedList ∨
      ¬ (v.cause = .join ∧ v.subject ≠ i ∧ p.machine.numberOfReplicas < v.members.length) ∧
        monetary ts = []) := by
  have hall : monetary p.machine.replica.executedList = p.machine.replica.executedList := by
    rw [h.executedList_eq]
    exact List.filter_eq_self.mpr fun t ht ↦ (mem_monetary.mp (mem_of_mem_firstCopies ht)).2
  rw [Process.view_sent, AdvancedListener.membershipMessageReceived_sent]
  refine ⟨_, rfl, ?_⟩
  by_cases hother : v.cause = .join ∧ v.subject ≠ i
  · rw [if_pos ((h.joined_ne_iff v).mpr hother), Process.membershipInfo, List.length_map]
    by_cases hsize : p.machine.numberOfReplicas < v.members.length
    · rw [if_pos hsize]
      exact .inl ⟨hother.1, hother.2, hsize, hall⟩
    · rw [if_neg hsize]
      exact .inr ⟨fun hc ↦ hsize hc.2.2, rfl⟩
  · rw [if_neg fun hc ↦ hother ((h.joined_ne_iff v).mp hc)]
    exact .inr ⟨fun hc ↦ hother ⟨hc.1, hc.2.1⟩, rfl⟩

theorem answers (h : HistoryInv D i joined past p sent) (v : View ι) :
    Answers D i joined past (.view v)
      (TotalOrder.stamped past.length (p.view D.privateGroup v).2) := by
  obtain ⟨ts, hsent, hcases⟩ := h.view_sent_cases v
  rw [hsent]
  refine ⟨?_, ?_, ?_⟩
  · intro y hy _ hm
    obtain ⟨q, hq, rfl⟩ := List.mem_map.mp hy
    obtain ⟨t, ht, rfl⟩ := List.mem_map.mp hq
    have ht : t ∈ monetary ts := mem_monetary.mpr ⟨ht, hm⟩
    rcases hcases with ⟨-, -, hsize, hts⟩ | ⟨-, hts⟩ <;> rw [hts] at ht
    · exact ⟨rfl, h.mem_ids_executedList.mp (List.mem_map_of_mem ht), v, rfl,
        (h.outgrown _).mp hsize⟩
    · cases ht
  · have hnodup : (ids (monetary ts)).Nodup := by
      rcases hcases with ⟨-, -, -, hts⟩ | ⟨-, hts⟩ <;> rw [hts]
      · rw [h.executedList_eq]
        exact nodup_map_firstCopies _
      · exact List.nodup_nil
    rw [ids, List.Nodup, List.pairwise_map, monetary, List.pairwise_filter] at hnodup
    refine List.pairwise_map.mpr (List.pairwise_map.mpr (hnodup.imp ?_))
    intro t u htu _ _ ht hu _
    exact htu ht hu
  · intro v' hv' hjoin hsubject hout x hx
    obtain rfl : v = v' := Entry.view.inj hv'
    have hsize := (h.outgrown _).mpr hout
    rcases hcases with ⟨-, -, -, hts⟩ | ⟨hnot, -⟩
    · obtain ⟨t, ht, hid⟩ := List.mem_map.mp (h.mem_ids_executedList.mpr hx)
      rw [← hts, mem_monetary] at ht
      exact ⟨_, List.mem_map_of_mem (List.mem_map_of_mem ht.1), rfl, ht.2, hid⟩
    · exact absurd ⟨hjoin, hsubject, hsize⟩ hnot

/-- A membership. -/
theorem view (h : HistoryInv D i joined past p sent) (hle : joined ≤ past.length) (v : View ι) :
    HistoryInv D i joined (past ++ [.view v]) (p.view D.privateGroup v).1
      (sent ++ TotalOrder.stamped past.length (p.view D.privateGroup v).2) := by
  refine h.extend hle (Process.ledger_view D.privateGroup p v)
    (AdvancedListener.membershipMessageReceived_privateGroup _ _) (fun size ↦ ?_) (h.answers v)
  refine (AdvancedListener.numberOfReplicas_lt_iff _ _ _).trans (and_congr_right fun _ ↦ ?_)
  have hother := h.joined_ne_iff v
  constructor
  · rintro hsize v' hv' hjoin hsubject
    obtain rfl : v = v' := Option.some.inj hv'
    obtain ⟨hcaused, hne⟩ := hother.mpr ⟨hjoin, hsubject⟩
    simpa [Process.membershipInfo] using hsize hcaused hne
  · intro hsize hcaused hne
    obtain ⟨hjoin, hsubject⟩ := hother.mp ⟨hcaused, hne⟩
    simpa [Process.membershipInfo] using hsize v rfl hjoin hsubject

end HistoryInv

/-! ## What members have been delivered -/

section

variable [DecidableEq ι] {D : Deployment ι} {s s' : State ι Process Packet}
variable {i j k : ι} {p r pk : Proc Process Packet} {x : String}

theorem historyInv_step {e : Event ι Action} (h : WellFormed s ∧ Holds (HistoryInv D) s)
    (he : ¬ Clears e) (hs : D.system.step s e = some s') :
    WellFormed s' ∧ Holds (HistoryInv D) s' := by
  refine TotalOrder.holds_step (C := fun _ e ↦ ¬ Clears e) (HistoryInv.fresh D) ?_ ?_ h he hs
  · intro s i k p hk hwf hI hp
    have hp := TotalOrder.proc_of_member? hp
    exact hwf.length_past hp ▸ (hI i p hp).act hk
  · intro s i p x _ hwf hI hp _
    have hp := TotalOrder.proc_of_member? hp
    have hle := hwf.joined_le_length_past hp
    cases x with
    | message k w q => exact (hI i p hp).receive hle k w q
    | view v => exact hwf.length_past hp ▸ (hI i p hp).view hle v

theorem historyInv_start (D : Deployment ι) : WellFormed D.start ∧ Holds (HistoryInv D) D.start :=
  TotalOrder.holds_start (HistoryInv.fresh D) []

omit [DecidableEq ι] in
theorem mem_orderedSince {joined : ℕ} {entries : List (Entry ι Packet)} :
    x ∈ orderedSince joined entries ↔ ∃ (u : ℕ) (k : ι) (w : ℕ) (q : Packet), joined ≤ u ∧
      entries[u]? = some (.message k w q) ∧ q.transaction.isMonetary ∧
      q.transaction.uniqueId = x := by
  rw [orderedSince, mem_ids_monetary_messages]
  constructor
  · rintro ⟨k, w, q, hmem, hq⟩
    obtain ⟨u, hu⟩ := List.getElem?_of_mem hmem
    rw [List.getElem?_drop] at hu
    exact ⟨joined + u, k, w, q, by omega, hu, hq⟩
  · rintro ⟨u, k, w, q, hle, hu, hq⟩
    refine ⟨k, w, q, List.mem_of_getElem? (i := u - joined) ?_, hq⟩
    rwa [List.getElem?_drop, Nat.add_sub_cancel' hle]

omit [DecidableEq ι] in
/-- What has been ordered since one position was ordered before another position or since. -/
theorem mem_orderedSince_take {joined joined' position : ℕ} {entries : List (Entry ι Packet)}
    (h : joined ≤ joined') (h' : joined' ≤ position) :
    x ∈ orderedSince joined (entries.take position) ↔
      x ∈ orderedSince joined (entries.take joined') ∨
      x ∈ orderedSince joined' (entries.take position) := by
  simp only [mem_orderedSince, List.getElem?_take]
  constructor
  · rintro ⟨u, k, w, q, hle, hu, hq⟩
    split at hu
    · by_cases hlt : u < joined'
      · exact .inl ⟨u, k, w, q, hle, by rw [if_pos hlt, hu], hq⟩
      · exact .inr ⟨u, k, w, q, by omega, by rw [if_pos ‹_›, hu], hq⟩
    · cases hu
  · rintro (⟨u, k, w, q, hle, hu, hq⟩ | ⟨u, k, w, q, hle, hu, hq⟩)
    · split at hu
      · exact ⟨u, k, w, q, hle, by rw [if_pos (by omega), hu], hq⟩
      · cases hu
    · exact ⟨u, k, w, q, by omega, hu, hq⟩

/-- A process that supplies a joiner has sent the transaction, and what it has sent has been
ordered. -/
theorem Supplies.mem_orderedSince (hI : WellFormed s ∧ Holds (HistoryInv D) s)
    (hJ : Joined [] s) (hr : s.proc j = some r) (ht : Transferred s r)
    (h : Supplies D s r.joined x k pk) : x ∈ orderedSince r.joined (s.past r) := by
  obtain ⟨members, hview⟩ := hJ.joiner hr List.not_mem_nil
  have hkj : k ≠ j := by
    rintro rfl
    obtain rfl : r = pk := Option.some.inj (hr.symm.trans h.proc)
    have hknown := h.known
    rw [orderedSince_take_self] at hknown
    cases hknown
  have hjoined : pk.joined ≤ r.joined := by
    obtain ⟨u, _, _, _, hle, hu, -⟩ := ReplicatedBank.mem_orderedSince.mp h.known
    rw [List.getElem?_take] at hu
    split at hu
    · omega
    · cases hu
  have hpast : (s.past pk).take r.joined = s.log.take r.joined := by
    rw [State.past, List.take_take, Nat.min_eq_left h.told.le]
  have htold : (s.past pk)[r.joined]? = some (.view ⟨.join, j, members⟩) := by
    rw [State.past, List.getElem?_take, if_pos h.told, hview]
  -- the answer has been sent
  obtain ⟨q, hq, hst, hm, hid⟩ := (hI.2 k pk h.proc).answered r.joined ⟨.join, j, members⟩
    hjoined htold rfl (Ne.symm hkj) (by
      rw [hpast]
      simpa [sizeAt, hview, Entry.view?] using h.outgrown) x (hpast ▸ h.known)
  -- and ordered
  rw [TotalOrder.sentBy_of_some h.proc, List.mem_append] at hq
  rcases hq with hq | hq
  · obtain ⟨u, hu⟩ := TotalOrder.mem_filterMap_of.mp hq
    have hlt : u < r.position := by
      by_contra hge
      have hmem : .message k r.joined q ∈ s.log.drop r.position := by
        refine List.mem_of_getElem? (i := u - r.position) ?_
        rw [List.getElem?_drop, Nat.add_sub_cancel' (not_lt.mp hge), hu]
      exact ht.delivered _ hmem ⟨hst, rfl⟩
    exact ReplicatedBank.mem_orderedSince.mpr ⟨u, k, r.joined, q, (hI.1.stamp_le hu).1,
      by rw [State.past, List.getElem?_take, if_pos hlt, hu], hm, hid⟩
  · exact absurd hid (h.kept _ hq hst rfl hm)

/-- What has been ordered in answer to a joining comes from a process that supplies it. -/
theorem supplies_of_answer (hI : WellFormed s ∧ Holds (HistoryInv D) s) {joined u : ℕ}
    {q : Packet} (hu : s.log[u]? = some (.message k joined q)) (hst : q.stateTransfer)
    (hm : q.transaction.isMonetary) :
    ∃ pk, Supplies D s joined q.transaction.uniqueId k pk := by
  obtain ⟨-, pk, hpk, -⟩ := hI.1.stamp_le hu
  have hk := hI.2 k pk hpk
  obtain ⟨hlt, hknown, hout⟩ := hk.resent joined q (TotalOrder.mem_sentBy_of_getElem? hu) hst hm
  rw [hI.1.length_past hpk] at hlt
  rw [State.past, List.take_take, Nat.min_eq_left hlt.le] at hknown hout
  rw [sizeAt, List.getElem?_take, if_pos hlt] at hout
  refine ⟨pk, hpk, hknown, hout, hlt, fun y hy hyst hyjoined hym ↦ ?_⟩
  -- the copy in the log is the only one
  have honce := hk.once
  rw [TotalOrder.sentBy_of_some hpk] at honce
  exact (List.pairwise_append.mp honce).2.2 (joined, q) (TotalOrder.mem_filterMap_of.mpr ⟨u, hu⟩)
    y hy hst hyst hm hym hyjoined.symm ∘ Eq.symm

/-- **What a process has been delivered** since its joining, once its state transfer is
complete: what was handed down to it, and what was repeated. -/
theorem mem_orderedSince_joined (hI : WellFormed s ∧ Holds (HistoryInv D) s) (hJ : Joined [] s)
    (hr : s.proc j = some r) (ht : Transferred s r) : x ∈ orderedSince r.joined (s.past r) ↔
      Repeated s r x ∨ ∃ k pk, Supplies D s r.joined x k pk := by
  constructor
  · intro hx
    obtain ⟨k, w, q, hmem, hm, rfl⟩ := mem_ids_monetary_messages.mp hx
    by_cases hanswer : IsAnswer r.joined (.message k w q)
    · obtain ⟨hst, rfl⟩ := hanswer
      obtain ⟨u, hu⟩ := List.getElem?_of_mem (List.mem_of_mem_take (List.mem_of_mem_drop hmem))
      obtain ⟨pk, hpk⟩ := supplies_of_answer hI hu hst hm
      exact .inr ⟨k, pk, hpk⟩
    · refine .inl (mem_ids_monetary_messages.mpr ⟨k, w, q, ?_, hm, rfl⟩)
      exact List.mem_filter.mpr ⟨hmem, decide_eq_true hanswer⟩
  · rintro (hrepeated | ⟨k, pk, hsupplies⟩)
    · obtain ⟨k, w, q, hmem, hq⟩ := mem_ids_monetary_messages.mp hrepeated
      exact mem_ids_monetary_messages.mpr ⟨k, w, q, (List.mem_filter.mp hmem).1, hq⟩
    · exact hsupplies.mem_orderedSince hI hJ hr ht

/-- Members agree exactly on what has been handed down. -/
theorem sameExecuted_iff_handedDown (hI : WellFormed s ∧ Holds (HistoryInv D) s)
    (hJ : Joined [] s) : SameExecuted s ↔ HandedDown D s := by
  have hexecuted : ∀ {i p x}, s.member? i = some p →
      (x ∈ ids p.node.machine.replica.executedList ↔ x ∈ orderedSince p.joined (s.past p)) :=
    fun hp ↦ (hI.2 _ _ (TotalOrder.proc_of_member? hp)).mem_ids_executedList
  have hsplit : ∀ {i j p r x}, s.member? i = some p → s.member? j = some r →
      p.position = r.position → Transferred s r → p.joined < r.joined →
      (x ∈ ids p.node.machine.replica.executedList ↔
        x ∈ orderedSince p.joined (s.log.take r.joined) ∨
          x ∈ ids r.node.machine.replica.executedList) := by
    intro i j p r x hp hr hpos ht hlt
    rw [hexecuted hp, hexecuted hr, State.past, State.past, hpos]
    exact mem_orderedSince_take hlt.le (hI.1.position_le (TotalOrder.proc_of_member? hr)).1
  constructor
  · intro h i j p r hp hr hpos htp htr hlt x hx
    rw [← mem_orderedSince_joined hI hJ (TotalOrder.proc_of_member? hr) htr, ← hexecuted hr,
      ← h i j p r hp hr hpos htp htr, hsplit hp hr hpos htr hlt]
    exact .inl hx
  · intro h
    have hle : ∀ i j p r, s.member? i = some p → s.member? j = some r →
        p.position = r.position → Transferred s p → Transferred s r → p.joined < r.joined →
        ∀ x, x ∈ ids p.node.machine.replica.executedList ↔
          x ∈ ids r.node.machine.replica.executedList := by
      intro i j p r hp hr hpos htp htr hlt x
      rw [hsplit hp hr hpos htr hlt]
      refine or_iff_right_of_imp fun hx ↦ ?_
      rw [hexecuted hr, mem_orderedSince_joined hI hJ (TotalOrder.proc_of_member? hr) htr]
      exact h i j p r hp hr hpos htp htr hlt x hx
    intro i j p r hp hr hpos htp htr x
    rcases lt_trichotomy p.joined r.joined with hlt | heq | hgt
    · exact hle i j p r hp hr hpos htp htr hlt x
    · rw [hexecuted hp, hexecuted hr, State.past, State.past, heq, hpos]
    · exact (hle j i r p hr hp hpos.symm htr htp hgt x).symm

/-! ## The answers of `checkTxStatus` -/

omit [DecidableEq ι] in
/-- A line with an id gets this answer, on the console and in the output file. -/
theorem ReplicatedStateMachine.checkTxStatus_eq (m : ReplicatedStateMachine)
    {input name counter : String} (hname : argument (splitSpaces input) 1 = .ok name)
    (hcounter : argument (splitSpaces input) 2 = .ok counter) :
    m.checkTxStatus input = .ok (m.write (print [.text input] ::
      report [.text (m.txStatus input (name ++ " " ++ counter))])) := by
  rw [checkTxStatus]
  simp only [hname, hcounter, evaluate]
  simp only [write, List.append_assoc, txStatus]
  rfl

/-- An answer follows from the ids that have been executed, as long as no two transactions
have one id. -/
theorem sameAnswers_of_sameExecuted (h : WellFormed s ∧ Holds (SharedInv D) s)
    (hc : Unwrapped s) (hsame : SameExecuted s) : SameAnswers s := by
  intro i j p r hp hr hpos htp htr input x
  have hlog : ∀ {i p t}, s.member? i = some p → t ∈ p.node.machine.replica.executedList →
      t.type ≠ .updateBalance ∧
        ∃ (u : ℕ) (k : ι) (w : ℕ) (q : Packet), s.log[u]? = some (.message k w q) ∧
          q.transaction = t := by
    intro i p t hp ht
    have ht := (h.2 i p (TotalOrder.proc_of_member? hp)).executed_subset ht
    obtain ⟨u, k, w, q, hu, hq⟩ := mem_messages.mp (mem_monetary.mp ht).1
    refine ⟨type_ne_of_mem_monetary ht, u, k, w, q, ?_, hq⟩
    rw [State.past, List.getElem?_take] at hu
    split at hu
    · exact hu
    · cases hu
  have hfind : ∀ ts : List Transaction, (ts.find? (·.uniqueId = x)).isSome ↔ x ∈ ids ts := by
    intro ts
    simp [List.find?_isSome, ids]
  have hids : _ ↔ _ := hsame i j p r hp hr hpos htp htr x
  rw [← hfind, ← hfind] at hids
  rw [ReplicatedStateMachine.txStatus, ReplicatedStateMachine.txStatus]
  cases hpt : p.node.machine.replica.executedList.find? (·.uniqueId = x) with
  | none =>
      cases hrt : r.node.machine.replica.executedList.find? (·.uniqueId = x) with
      | none => rfl
      | some t' => simp [hpt, hrt] at hids
  | some t =>
      cases hrt : r.node.machine.replica.executedList.find? (·.uniqueId = x) with
      | none => simp [hpt, hrt] at hids
      | some t' =>
          -- one id, so one transaction
          obtain ⟨hty, u, k, w, q, hu, rfl⟩ := hlog hp (List.mem_of_find?_eq_some hpt)
          obtain ⟨hty', u', k', w', q', hu', rfl⟩ := hlog hr (List.mem_of_find?_eq_some hrt)
          have hid : q.transaction.uniqueId = x := by simpa using List.find?_some hpt
          have hid' : q'.transaction.uniqueId = x := by simpa using List.find?_some hrt
          rw [eq_of_uniqueId_eq h hc hu hty hu' hty' (hid.trans hid'.symm)]

/-- **Late joiners.**  In a run without `cleanHistory`, any two members at one position whose
state transfers are complete have always executed the same ids exactly if whatever was
ordered between their joinings has always been handed down to the second one or repeated.
`checkTxStatus` then gives the same answers at both, unless a counter has gone through its
values. -/
theorem sameExecuted_iff (D : Deployment ι) {es : List (Event ι Action)}
    (hk : ∀ e ∈ es, ¬ Clears e) :
    (D.system.Always SameExecuted D.start es ↔ D.system.Always (HandedDown D) D.start es) ∧
    (D.system.Always Unwrapped D.start es → D.system.Always SameExecuted D.start es →
      D.system.Always SameAnswers D.start es) := by
  let I (s : State ι Process Packet) : Prop :=
    (WellFormed s ∧ Holds (HistoryInv D) s) ∧ Joined [] s
  have hstep : ∀ s e s', I s → ¬ Clears e → D.system.step s e = some s' → I s' :=
    fun s e s' h he hs ↦ ⟨historyInv_step h.1 he hs, h.2.step hs⟩
  have hstart : I D.start := ⟨historyInv_start D, .start [] D.fresh⟩
  have hclears := Machine.along_of_forall_mem (M := D.system) hk D.start
  refine ⟨⟨?_, ?_⟩, fun hc hsame ↦ ?_⟩
  · exact Machine.Always.mono_of_invariant hstep
      (fun s h ↦ (sameExecuted_iff_handedDown h.1 h.2).mp) hstart hclears
  · exact Machine.Always.mono_of_invariant hstep
      (fun s h ↦ (sameExecuted_iff_handedDown h.1 h.2).mpr) hstart hclears
  · exact Machine.Always.mono_of_invariant (fun s e s' h hc hs ↦ sharedInv_step h hc hs)
      (fun s h hs ↦ sameAnswers_of_sameExecuted h hs.1 hs.2) (sharedInv_start D) hc.along
      (Machine.always_and.mpr ⟨hc, hsame⟩)

end

/-! ## Members that are replaced -/

instance (s : State ι Process Packet) (r : Proc Process Packet) : Decidable (Transferred s r) :=
  decidable_of_iff ((∀ k ∈ s.members, ∀ pk ∈ s.proc k, r.joined < pk.position ∧
      ∀ y ∈ pk.outbox, ¬ (y.2.stateTransfer ∧ y.1 = r.joined)) ∧
    ∀ x ∈ s.log.drop r.position, ¬ IsAnswer r.joined x)
    ⟨fun h ↦ ⟨h.1, h.2⟩, fun h ↦ ⟨h.told, h.delivered⟩⟩

/-- Two processes that do not wait for others. -/
def independent : Deployment (Fin 2) := .numbered fun _ ↦ 1

/-- The second replica joins, and the first sends it its history. -/
def historySent : List (Event (Fin 2) Action) :=
  firstDeposit ++ [.join 1, .deliver 0, .order 0, .order 0, .deliver 0, .deliver 0, .deliver 1,
    .deliver 1, .deliver 1]

theorem sameExecuted_iff_historySent :
    (independent.system.Always SameExecuted independent.start historySent ↔
      independent.system.Always (HandedDown independent) independent.start historySent) ∧
    (independent.system.Always Unwrapped independent.start historySent →
      independent.system.Always SameExecuted independent.start historySent →
      independent.system.Always SameAnswers independent.start historySent) :=
  sameExecuted_iff independent (by decide +kernel)

/-- Three processes that all expect a group of two. -/
def pairs : Deployment (Fin 3) := .numbered fun _ ↦ 2

/-- Two replicas share a deposit, and a third one replaces the second. -/
def replaced : List (Event (Fin 3) Action) :=
  [.join 0, .deliver 0, .join 1, .deliver 0, .deliver 1, .order 0, .deliver 0, .deliver 1,
    .act 0 (.command "deposit 100"), .act 0 (.tick 1), .order 0, .deliver 0, .deliver 1,
    .leave 1, .join 2, .deliver 0, .deliver 0, .deliver 2, .order 0, .deliver 0, .deliver 2]

/-- The group has two members again, as the first one expects, so that it sends the third its
balance only: the deposit is executed at one of them, and has not been executed at the
other. -/
theorem not_sameExecuted_replaced : (∀ e ∈ replaced, ¬ Clears e) ∧
    ∃ s, pairs.system.run pairs.start replaced = some s ∧ ¬ SameExecuted s ∧ ¬ SameAnswers s := by
  refine ⟨by decide +kernel, ?_⟩
  have h : (pairs.system.run pairs.start replaced).any (fun s ↦
      (s.member? 0).any fun p ↦ (s.member? 2).any fun r ↦
        p.position = r.position ∧ Transferred s p ∧ Transferred s r ∧
        "Rep1 0" ∈ ids p.node.machine.replica.executedList ∧
        "Rep1 0" ∉ ids r.node.machine.replica.executedList ∧
        p.node.machine.txStatus "checkTxStatus Rep1 0" "Rep1 0" ≠
          r.node.machine.txStatus "checkTxStatus Rep1 0" "Rep1 0") := by decide +kernel
  obtain ⟨s, hs, h⟩ := (Option.any_eq_true _ _).mp h
  obtain ⟨p, hp, h⟩ := (Option.any_eq_true _ _).mp h
  obtain ⟨r, hr, h⟩ := (Option.any_eq_true _ _).mp h
  obtain ⟨hpos, htp, htr, hexecuted, hnot, hanswers⟩ := of_decide_eq_true h
  exact ⟨s, hs, fun hc ↦ hnot ((hc 0 2 p r hp hr hpos htp htr _).mp hexecuted),
    fun hc ↦ hanswers (hc 0 2 p r hp hr hpos htp htr _ _)⟩

end ReplicatedBank
