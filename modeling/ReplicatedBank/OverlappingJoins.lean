import ReplicatedBank.ChangingGroup

/-!
# Joins that overlap

A group with a balance grows by several processes, none of which waits for the state
transfer of another.  Every member answers every joining with the balance it has, and a
process that has joined but has not installed a balance yet answers with 0.  Whoever
delivers such an answer first is left with it.

The invariant (`TransferInv`) gives what every process has and sends: founders and
initialized processes the balance of the founders, all others 0.  A founder answers every
joining, so that at the end every process has installed something
(`initialized_of_quiescent`), and what it has installed is the founders' balance unless
somebody has installed the answer of an uninitialized process.
-/

namespace ReplicatedBank

open Distributed
open Distributed.TotalOrder (Entry Proc State Event WellFormed Holds Joined react)

/-- A group of founders with a common balance that other processes are going to join. -/
structure Founding (ι : Type*) extends Deployment ι where
  founders : List ι
  ne_nil : founders ≠ []
  /-- The state of a founder. -/
  node : ι → Process
  balance : ℚ
  balance_eq : ∀ i ∈ founders, (node i).machine.replica.balance = balance
  privateGroup_eq : ∀ i ∈ founders, (node i).machine.privateGroup = privateGroup i
  numberOfReplicas_eq : ∀ i ∈ founders, (node i).machine.numberOfReplicas = numberOfReplicas i

namespace Founding

variable {ι : Type*} [DecidableEq ι] (F : Founding ι)

/-- A founder as it is, or a process that joins. -/
def initial (i : ι) : Process := if i ∈ F.founders then F.node i else F.toDeployment.fresh i

/-- The system as a machine. -/
def machine : Machine (State ι Process Packet) (Event ι Action) :=
  TotalOrder.machine (bank F.privateGroup) F.initial

/-- The founders before anybody joins. -/
def begin : State ι Process Packet := TotalOrder.start F.founders F.initial

end Founding

section

variable {ι : Type*}

/-- Joins, and what they cause. -/
def Growing : Event ι Action → Prop
  | .join _ | .order _ | .deliver _ => True
  | .act _ _ | .leave _ | .disconnect _ => False

instance : DecidablePred (Growing (ι := ι))
  | .join _ | .order _ | .deliver _ => instDecidableTrue
  | .act _ _ | .leave _ | .disconnect _ => instDecidableFalse

/-- Everything has been ordered and delivered. -/
def Quiescent (s : State ι Process Packet) : Prop :=
  ∀ i, ∀ p ∈ s.proc i, p.position = s.log.length ∧ p.outbox = []

/-- If the message is installed, it comes from a founder or from a process that had installed
a balance when it sent it. -/
def Sourced (F : Founding ι) (_ : State ι Process Packet) (x : Incoming ι) : Prop :=
  x.proc.node.ledger.Installs x.packet.transaction →
    x.packet.senderInitialized ∨ x.sender ∈ F.founders

instance [DecidableEq ι] (F : Founding ι) (s : State ι Process Packet) (x : Incoming ι) :
    Decidable (Sourced F s x) :=
  inferInstanceAs (Decidable (_ → _))

variable [DecidableEq ι] {F : Founding ι} {s s' : State ι Process Packet} {i : ι} {joined : ℕ}
variable {past : List (Entry ι Packet)} {p : Process} {sent : List (ℕ × Packet)}

/-- What holds of a process and of what it sends while the group grows. -/
structure TransferInv (F : Founding ι) (i : ι) (joined : ℕ) (past : List (Entry ι Packet))
    (p : Process) (sent : List (ℕ × Packet)) : Prop where
  privateGroup : p.machine.privateGroup = F.privateGroup i
  numberOfReplicas : p.machine.numberOfReplicas = F.numberOfReplicas i
  /-- Founders and initialized processes have the balance. -/
  balance : i ∈ F.founders ∨ p.ledger.initialized → p.ledger.balance = F.balance
  /-- The others have 0. -/
  balance_zero : i ∉ F.founders → p.ledger.initialized = false → p.ledger.balance = 0
  executed : i ∉ F.founders → p.ledger.executed = []
  /-- A process that has been delivered a message has installed a balance. -/
  initialized : i ∉ F.founders → ∀ u k w q, joined ≤ u → past[u]? = some (.message k w q) →
    p.ledger.initialized
  sent_type : ∀ w q, (w, q) ∈ sent → q.transaction.type = .updateBalance
  sent_balance : ∀ w q, (w, q) ∈ sent →
    q.senderInitialized ∨ i ∈ F.founders ∨ F.balance = 0 → q.transaction.balance = F.balance
  /-- It has answered the joining of every other process. -/
  answered : ∀ u v, joined ≤ u → past[u]? = some (.view v) → v.cause = .join → v.subject ≠ i →
    ∃ q, (u, q) ∈ sent

namespace TransferInv

theorem initial (F : Founding ι) (i : ι) (past : List (Entry ι Packet)) :
    TransferInv F i past.length past (F.initial i) [] := by
  have hpast : ∀ u x, past.length ≤ u → past[u]? ≠ some x := by
    intro u x hu hx
    rw [List.getElem?_eq_none hu] at hx
    cases hx
  by_cases hi : i ∈ F.founders
  · have hnode : F.initial i = F.node i := if_pos hi
    rw [hnode]
    exact
      { privateGroup := F.privateGroup_eq i hi
        numberOfReplicas := F.numberOfReplicas_eq i hi
        balance := fun _ ↦ F.balance_eq i hi
        balance_zero := fun h ↦ absurd hi h
        executed := fun h ↦ absurd hi h
        initialized := fun h ↦ absurd hi h
        sent_type := by simp
        sent_balance := by simp
        answered := fun u v hu hv ↦ absurd hv (hpast u _ hu) }
  · have hfresh : F.initial i = F.toDeployment.fresh i := if_neg hi
    rw [hfresh]
    exact
      { privateGroup := rfl
        numberOfReplicas := rfl
        balance := fun h ↦ absurd (h.resolve_left hi) (by simp [Deployment.fresh,
          Process.ledger_new, Ledger.empty])
        balance_zero := fun _ _ ↦ rfl
        executed := fun _ ↦ rfl
        initialized := fun _ u k w q hu hx ↦ absurd hx (hpast u _ hu)
        sent_type := by simp
        sent_balance := by simp
        answered := fun u v hu hv ↦ absurd hv (hpast u _ hu) }

omit [DecidableEq ι] in
/-- What a process with a proper source sends is the founders' balance. -/
theorem balance_of_source (h : TransferInv F i joined past p sent)
    (hsource : p.ledger.initialized ∨ i ∈ F.founders ∨ F.balance = 0) :
    p.ledger.balance = F.balance := by
  by_cases hhas : i ∈ F.founders ∨ p.ledger.initialized
  · exact h.balance hhas
  · rw [not_or] at hhas
    rw [h.balance_zero hhas.1 (by simpa using hhas.2)]
    rcases hsource with hinit | hf | hzero
    · exact absurd hinit hhas.2
    · exact absurd hf hhas.1
    · exact hzero.symm

omit [DecidableEq ι] in
/-- A membership of a size that everybody is prepared for. -/
theorem view (h : TransferInv F i joined past p sent) (v : View ι)
    (hv : v.members.length ≤ F.numberOfReplicas i) :
    TransferInv F i joined (past ++ [.view v]) (p.view F.privateGroup v).1
      (sent ++ TotalOrder.stamped past.length (p.view F.privateGroup v).2) := by
  have hledger := Process.ledger_view F.privateGroup p v
  have hsize : v.members.length ≤ p.machine.numberOfReplicas := h.numberOfReplicas ▸ hv
  have hsent := Process.view_sent_of_le F.privateGroup hsize
  have hnew : ∀ w q, (w, q) ∈ TotalOrder.stamped past.length (p.view F.privateGroup v).2 →
      q = p.answer := by
    intro w q hq
    obtain ⟨-, hq⟩ := TotalOrder.mem_stamped.mp hq
    rw [hsent] at hq
    split at hq
    · exact List.mem_singleton.mp hq
    · cases hq
  exact
    { privateGroup :=
        (AdvancedListener.membershipMessageReceived_privateGroup _ _).trans h.privateGroup
      numberOfReplicas :=
        (AdvancedListener.membershipMessageReceived_numberOfReplicas _ _
          (by rwa [Process.membershipInfo, List.length_map])).trans h.numberOfReplicas
      balance := by rw [hledger]; exact h.balance
      balance_zero := by rw [hledger]; exact h.balance_zero
      executed := by rw [hledger]; exact h.executed
      initialized := by
        rw [hledger]
        intro hi u k w q hu hx
        rcases TotalOrder.getElem?_concat_eq_some.mp hx with hx | ⟨-, hx⟩
        · exact h.initialized hi u k w q hu hx
        · cases hx
      sent_type := by
        intro w q hq
        rcases List.mem_append.mp hq with hq | hq
        · exact h.sent_type w q hq
        · rw [hnew w q hq]
          rfl
      sent_balance := by
        intro w q hq hsource
        rcases List.mem_append.mp hq with hq | hq
        · exact h.sent_balance w q hq hsource
        · rw [hnew w q hq] at hsource ⊢
          exact h.balance_of_source hsource
      answered := by
        intro u v' hu hx hjoin hsubject
        rcases TotalOrder.getElem?_concat_eq_some.mp hx with hx | ⟨rfl, hview⟩
        · obtain ⟨q, hq⟩ := h.answered u v' hu hx hjoin hsubject
          exact ⟨q, List.mem_append_left _ hq⟩
        · obtain rfl : v = v' := Entry.view.inj hview
          have hmem : p.answer ∈ (p.view F.privateGroup v).2 := by
            rw [hsent, if_pos ⟨hjoin, fun hp ↦ hsubject (F.privateGroup_injective
              (hp.trans h.privateGroup))⟩]
            exact List.mem_singleton_self _
          exact ⟨p.answer, List.mem_append_right _ (TotalOrder.mem_stamped.mpr ⟨rfl, hmem⟩)⟩ }

omit [DecidableEq ι] in
/-- A message with a balance that, if it is installed, is the founders'. -/
theorem receive (h : TransferInv F i joined past p sent) {k : ι} {w : ℕ} {q : Packet}
    (hty : q.transaction.type = .updateBalance)
    (hinst : p.ledger.Installs q.transaction → q.transaction.balance = F.balance) :
    TransferInv F i joined (past ++ [.message k w q]) (p.receive q) sent := by
  have hledger : (p.receive q).ledger = _ := Process.ledger_receive
  have hx : ¬ p.ledger.Executes q.transaction := fun hx ↦ hx.ne_updateBalance hty
  have hsame := AdvancedListener.sameProcess_regularMessageReceived p.machine q.transaction
  have hprivate : (p.receive q).machine.privateGroup = _ := hsame.privateGroup.trans h.privateGroup
  have hnumber : (p.receive q).machine.numberOfReplicas = _ :=
    hsame.numberOfReplicas.trans h.numberOfReplicas
  have hanswered : ∀ u v, joined ≤ u → (past ++ [.message k w q])[u]? = some (.view v) →
      v.cause = .join → v.subject ≠ i → ∃ q, (u, q) ∈ sent := by
    intro u v hu hx hjoin hsubject
    rcases TotalOrder.getElem?_concat_eq_some.mp hx with hx | ⟨-, hx⟩
    · exact h.answered u v hu hx hjoin hsubject
    · cases hx
  rcases p.ledger.deliver_cases q.transaction with ⟨hc, -⟩ | ⟨hi, hd⟩ | ⟨-, hi, hd⟩
  · exact absurd hc hx
  · rw [hd] at hledger
    exact
      { privateGroup := hprivate
        numberOfReplicas := hnumber
        balance := fun _ ↦ by rw [hledger]; exact hinst hi
        balance_zero := fun _ hz ↦ by simp [hledger] at hz
        executed := by rw [hledger]; exact h.executed
        initialized := fun _ _ _ _ _ _ _ ↦ by rw [hledger]
        sent_type := h.sent_type
        sent_balance := h.sent_balance
        answered := hanswered }
  · rw [hd] at hledger
    exact
      { privateGroup := hprivate
        numberOfReplicas := hnumber
        balance := by rw [hledger]; exact h.balance
        balance_zero := by rw [hledger]; exact h.balance_zero
        executed := by rw [hledger]; exact h.executed
        initialized := by
          rw [hledger]
          intro hf u k' w' q' hu hx
          -- nothing is executed, so only an initialized process turns the message away
          by_contra hinit
          exact hi ⟨hty, by simpa using hinit, by simp [h.executed hf]⟩
        sent_type := h.sent_type
        sent_balance := h.sent_balance
        answered := hanswered }

end TransferInv

/-! ## Runs -/

/-- While a group grows, memberships are no larger than the group, and the invariant holds
as long as every process is prepared for its size. -/
structure Grown (F : Founding ι) (s : State ι Process Packet) : Prop where
  joined : Joined F.founders s
  size_le : ∀ x ∈ s.log, ∀ v ∈ x.view?, v.members.length ≤ s.members.length
  holds : (∀ i, (s.proc i).isSome → s.members.length ≤ F.numberOfReplicas i) →
    WellFormed s ∧ Holds (TransferInv F) s

theorem grown_begin (F : Founding ι) : Grown F F.begin where
  joined := .start F.founders F.initial
  size_le := by simp [Founding.begin, TotalOrder.start]
  holds _ := TotalOrder.holds_start (TransferInv.initial F) F.founders

/-- A growing group loses nobody. -/
theorem growing_mono {e : Event ι Action} (he : Growing e) (hs : F.machine.step s e = some s') :
    s.members.length ≤ s'.members.length ∧ ∀ i, (s.proc i).isSome → (s'.proc i).isSome := by
  have hset : ∀ (i : ι) (p : Proc Process Packet) (j : ι), (s.proc j).isSome →
      ((s.setProc i p).proc j).isSome := by
    intro i p j hj
    by_cases hji : j = i
    · subst hji
      simp
    · rwa [TotalOrder.setProc_proc_of_ne hji]
  rcases TotalOrder.step_cases hs with ⟨i, k, p, rfl, -, hp, rfl⟩ | ⟨i, rfl, hi, rfl⟩ |
    ⟨cause, i, rfl | rfl, rfl⟩ | ⟨i, p, w, m, rest, rfl, hp, ho, rfl⟩ |
    ⟨i, p, x, rfl, -, hp, hx, rfl⟩
  · exact he.elim
  · refine ⟨by simp [State.joined], fun j hj ↦ ?_⟩
    by_cases hji : j = i
    · subst hji
      simp [State.joined]
    · simpa [State.joined, hji] using hj
  · exact he.elim
  · exact he.elim
  · exact ⟨Nat.le_refl _, hset i _⟩
  · exact ⟨Nat.le_refl _, hset i _⟩

/-- Memberships that are added are those of the group. -/
theorem size_le_step {e : Event ι Action}
    (h : ∀ x ∈ s.log, ∀ v ∈ x.view?, v.members.length ≤ s.members.length) (he : Growing e)
    (hs : F.machine.step s e = some s') :
    ∀ x ∈ s'.log, ∀ v ∈ x.view?, v.members.length ≤ s'.members.length := by
  rcases TotalOrder.step_cases hs with ⟨i, k, p, rfl, -, hp, rfl⟩ | ⟨i, rfl, hi, rfl⟩ |
    ⟨cause, i, rfl | rfl, rfl⟩ | ⟨i, p, w, m, rest, rfl, hp, ho, rfl⟩ |
    ⟨i, p, x, rfl, -, hp, hx, rfl⟩
  · exact he.elim
  · refine List.forall_mem_append.mpr ⟨fun x hx v hv ↦ ?_, ?_⟩
    · simpa [State.joined] using Nat.le_succ_of_le (h x hx v hv)
    · simp [State.joined, Entry.view?]
  · exact he.elim
  · exact he.elim
  · refine List.forall_mem_append.mpr ⟨h, ?_⟩
    simp [Entry.view?]
  · exact h

theorem grown_step {e : Event ι Action} (h : Grown F s)
    (he : Growing e ∧ OnDelivery (fun s x ↦ Sourced F s x ∨ F.balance = 0) s e)
    (hs : F.machine.step s e = some s') : Grown F s' := by
  obtain ⟨hlen, hsome⟩ := growing_mono he.1 hs
  refine ⟨h.joined.step hs, size_le_step h.size_le he.1 hs, fun hn ↦ ?_⟩
  have hn : ∀ i, (s.proc i).isSome → s.members.length ≤ F.numberOfReplicas i := fun i hi ↦
    (Nat.cast_le.mpr hlen).trans (hn i (hsome i hi))
  refine TotalOrder.holds_step (C := fun s e ↦
    (Growing e ∧ OnDelivery (fun s x ↦ Sourced F s x ∨ F.balance = 0) s e) ∧
      (∀ x ∈ s.log, ∀ v ∈ x.view?, v.members.length ≤ s.members.length) ∧
      ∀ i, (s.proc i).isSome → s.members.length ≤ F.numberOfReplicas i)
    (TransferInv.initial F) ?_ ?_ (h.holds hn) ⟨he, h.size_le, hn⟩ hs
  · rintro s i k p ⟨⟨hgrow, -⟩, -⟩
    exact hgrow.elim
  · rintro s i p x ⟨⟨-, hsource⟩, hsize, hn⟩ hwf hI hp hx
    have hproc := TotalOrder.proc_of_member? hp
    cases x with
    | view v =>
        have hv : (v.members.length : ℤ) ≤ F.numberOfReplicas i :=
          (Nat.cast_le.mpr (hsize _ (List.mem_of_getElem? hx) v rfl)).trans
            (hn i (by simp [hproc]))
        exact hwf.length_past hproc ▸ (hI i p hproc).view v hv
    | message k w q =>
        obtain ⟨-, pk, hpk, -⟩ := hwf.stamp_le hx
        have hmem := TotalOrder.mem_sentBy_of_getElem? hx
        show TransferInv F _ _ _ (p.node.receive q) (s.sentBy i ++ [])
        rw [List.append_nil]
        refine (hI i p hproc).receive ((hI k pk hpk).sent_type w q hmem) fun hinst ↦ ?_
        have hsource : Sourced F s ⟨p, k, w, q⟩ ∨ F.balance = 0 :=
          OnDelivery.of_message hsource hp hx
        refine (hI k pk hpk).sent_balance w q hmem ?_
        rcases hsource with hsource | hzero
        · exact (hsource hinst).imp_right .inl
        · exact .inr (.inr hzero)

/-- When everything has been delivered, every process that has joined has installed a
balance: the answer of a founder, if no other. -/
theorem initialized_of_quiescent (hj : Joined F.founders s)
    (h : WellFormed s ∧ Holds (TransferInv F) s) (hq : Quiescent s) {p : Proc Process Packet}
    (hp : s.proc i = some p) (hi : i ∉ F.founders) : p.node.ledger.initialized := by
  obtain ⟨f, hf⟩ := List.exists_mem_of_ne_nil _ F.ne_nil
  obtain ⟨pf, hpf⟩ := Option.isSome_iff_exists.mp (hj.isSome f hf)
  have hpast : ∀ {j q}, s.proc j = some q → s.past q = s.log := fun hj ↦ by
    rw [State.past, (hq _ _ hj).1, List.take_length]
  -- the founder has seen the joining and answered it
  obtain ⟨members, hview⟩ := hj.joiner hp hi
  obtain ⟨q, hanswer⟩ := (h.2 f pf hpf).answered p.joined _ (by rw [hj.founder hpf hf]; omega)
    (by rw [hpast hpf]; exact hview) rfl fun (heq : i = f) ↦ hi (heq ▸ hf)
  -- the answer has been ordered, after the joining
  rw [TotalOrder.sentBy_of_some hpf, (hq f pf hpf).2, List.append_nil] at hanswer
  obtain ⟨u, hu⟩ := TotalOrder.mem_filterMap_of.mp hanswer
  have hle := (h.1.stamp_le hu).1
  exact (h.2 i p hp).initialized hi u f p.joined q (by omega) (by rw [hpast hp]; exact hu)

/-- **Overlapping joins.**  When a group has grown and everything has been delivered, every
process has the founders' balance, provided that this is 0 or that nobody has installed the
answer of a process that had joined but not installed a balance itself. -/
theorem balance_of_quiescent (F : Founding ι) {es : List (Event ι Action)}
    (he : ∀ e ∈ es, Growing e)
    (hsource : F.balance = 0 ∨ F.machine.Along (OnDelivery (Sourced F)) F.begin es)
    (hr : F.machine.run F.begin es = some s)
    (hn : ∀ i, (s.proc i).isSome → s.members.length ≤ F.numberOfReplicas i) (hq : Quiescent s) :
    ∀ i p, s.proc i = some p → p.node.machine.replica.balance = F.balance := by
  have halong : F.machine.Along (OnDelivery fun s x ↦ Sourced F s x ∨ F.balance = 0)
      F.begin es := by
    rcases hsource with hzero | hsource
    · refine (Machine.along_true F.begin es).mono fun s e _ ↦ ?_
      cases e <;> simp [OnDelivery, hzero]
    · refine hsource.mono fun s e h ↦ ?_
      cases e with
      | deliver i => exact fun x hx ↦ .inl (h x hx)
      | _ => trivial
  have hgrown : Grown F s := Machine.run_invariant (fun s e s' h hc hs ↦ grown_step h hc hs)
    (grown_begin F) (Machine.along_and.mpr ⟨Machine.along_of_forall_mem he _, halong⟩) hr
  have h := hgrown.holds hn
  intro i p hp
  refine (h.2 i p hp).balance ?_
  by_cases hi : i ∈ F.founders
  · exact .inl hi
  · exact .inr (initialized_of_quiescent hgrown.joined h hq hp hi)

end

/-! ## One founder, two joins -/

/-- A replica with a balance of 100 that two others join. -/
def founded : Founding (Fin 3) where
  toDeployment := .numbered fun _ ↦ 3
  founders := [0]
  ne_nil := by decide
  node _ := .started "Rep1" "#Rep1" 3 100
  balance := 100
  balance_eq _ _ := rfl
  privateGroup_eq i hi := by rw [List.mem_singleton.mp hi]; rfl
  numberOfReplicas_eq _ _ := rfl

/-- The second process joins when the first one has its balance. -/
def oneByOne : List (Event (Fin 3) Action) :=
  [.join 1, .deliver 0, .deliver 1, .order 0, .deliver 0, .deliver 1,
    .join 2, .deliver 0, .deliver 1, .deliver 2, .order 0, .order 1,
    .deliver 0, .deliver 0, .deliver 1, .deliver 1, .deliver 2, .deliver 2]

theorem balance_of_quiescent_oneByOne : ∃ s, founded.machine.run founded.begin oneByOne = some s ∧
    ∀ i p, s.proc i = some p → p.node.machine.replica.balance = founded.balance := by
  have h : (founded.machine.run founded.begin oneByOne).any (fun s ↦
      (∀ i, (s.proc i).isSome → (s.members.length : ℤ) ≤ founded.numberOfReplicas i) ∧
      ∀ i, ∀ p ∈ s.proc i, p.position = s.log.length ∧ p.outbox = []) := by decide +kernel
  obtain ⟨s, hs, h⟩ := (Option.any_eq_true _ _).mp h
  obtain ⟨hn, hq⟩ := of_decide_eq_true h
  exact ⟨s, hs,
    balance_of_quiescent founded (by decide +kernel) (.inr (by decide +kernel)) hs hn hq⟩

/-- The first process answers the joining of the second before it has installed a balance. -/
def overlapping : List (Event (Fin 3) Action) :=
  [.join 1, .join 2, .deliver 1, .deliver 1, .order 1, .deliver 2, .deliver 2,
    .deliver 0, .deliver 0, .deliver 0, .order 0, .order 0, .deliver 0, .deliver 0,
    .deliver 1, .deliver 1, .deliver 1, .deliver 2, .deliver 2]

/-- Both new processes end up with 0. -/
theorem not_balance_overlapping : (∀ e ∈ overlapping, Growing e) ∧
    ∃ s, founded.machine.run founded.begin overlapping = some s ∧
      (∀ i, (s.proc i).isSome → s.members.length ≤ founded.numberOfReplicas i) ∧ Quiescent s ∧
      ∃ p, s.proc 2 = some p ∧ p.node.machine.replica.balance = 0 ∧ founded.balance = 100 := by
  refine ⟨by decide +kernel, ?_⟩
  have h : (founded.machine.run founded.begin overlapping).any (fun s ↦
      (∀ i, (s.proc i).isSome → (s.members.length : ℤ) ≤ founded.numberOfReplicas i) ∧
      (∀ i, ∀ p ∈ s.proc i, p.position = s.log.length ∧ p.outbox = []) ∧
      (s.proc 2).any fun p ↦ p.node.machine.replica.balance = 0) := by decide +kernel
  obtain ⟨s, hs, h⟩ := (Option.any_eq_true _ _).mp h
  obtain ⟨hn, hq, h⟩ := of_decide_eq_true h
  obtain ⟨p, hp, h⟩ := (Option.any_eq_true _ _).mp h
  exact ⟨s, hs, hn, hq, p, hp, of_decide_eq_true h, rfl⟩

end ReplicatedBank
