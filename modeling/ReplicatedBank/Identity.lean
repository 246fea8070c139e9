import ReplicatedBank.Distributed.Machine
import ReplicatedBank.Process

/-!
# Transactions and their names

Processes are started and stopped, possibly under a name that has been used before, over a
network that may deliver anything that was ever sent to any running process, in any order
and any number of times.  The program knows a transaction by its id.  Here every entry of
a list and every message also carries its `Origin`: the process that accepted the
transaction, and its place among what that process accepted.  No step of a process reads
an origin.

An id determines the origin as long as no two processes under one name have accepted
transactions and none has gone through its counter (`Sound.origin_eq`); then the duplicate
filter and the filter on the outstanding collection match a transaction with itself only
(`genuine_of_unambiguous`).  A name may be used again after a process that has accepted nothing.
Whole runs without a restart give all queued transactions different ids.
-/

namespace ReplicatedBank

open Distributed

/-- The acceptance of a transaction: by which process, and after how many others. -/
structure Origin where
  process : ℕ
  number : ℕ
deriving DecidableEq

/-- Something with the origin of the transaction in it.  A balance that is sent to a process
that has joined has none. -/
structure Traced (α : Type) where
  value : α
  origin : Option Origin
deriving DecidableEq

namespace Traced

variable {α β : Type} {x : Traced α}

def map (f : α → β) (x : Traced α) : Traced β := ⟨f x.value, x.origin⟩

/-- The values in a list, with origins in the same order. -/
def label (xs : List α) (origins : List (Option Origin)) : List (Traced α) :=
  xs.zipWith Traced.mk origins

theorem label_map (f : α → β) (ys : List (Traced α)) :
    label ((ys.map value).map f) (ys.map origin) = ys.map (map f) := by
  rw [label, List.map_map, List.zipWith_map, List.zipWith_self]
  rfl

/-- Labels are given from the left. -/
theorem label_isPrefix {xs ys : List α} (h : xs <+: ys) (origins : List (Option Origin)) :
    label xs origins <+: label ys origins := by
  obtain ⟨zs, rfl⟩ := h
  induction xs generalizing origins with
  | nil => exact List.nil_prefix
  | cons x xs ih =>
      cases origins with
      | nil => exact List.nil_prefix
      | cons o origins => exact (List.prefix_cons_inj _).mpr (ih origins)

end Traced

/-! ## Processes with origins -/

instance (m : ReplicatedStateMachine) (t : Transaction) :
    Decidable (AdvancedListener.Consumes m t) :=
  decidable_of_iff (t.uniqueId ∉ ids m.replica.executedList ∧
    (t.isMonetary ∨ t.type = .syncedBalance)) ⟨fun h ↦ ⟨h.1, h.2⟩, fun h ↦ ⟨h.1, h.2⟩⟩

/-- A process with the origins of what is in its lists. -/
structure Incarnation where
  process : Process
  running : Bool
  executed : List (Traced Transaction)
  outstanding : List (Traced Transaction)
  /-- The origins of all that has been applied here, cleared from the history or not. -/
  applied : List (Option Origin)
  executed_eq : executed.map Traced.value = process.machine.replica.executedList
  outstanding_eq : outstanding.map Traced.value = process.outstanding
  mem_applied : ∀ y ∈ executed, y.origin ∈ applied

namespace Incarnation

/-- A process that is started. -/
def new (replicaName privateGroup : String) (numberOfReplicas : ℤ) : Incarnation where
  process := .new replicaName privateGroup numberOfReplicas
  running := true
  executed := []
  outstanding := []
  applied := []
  executed_eq := rfl
  outstanding_eq := rfl
  mem_applied _ hy := absurd hy List.not_mem_nil

variable (p : Incarnation)

abbrev replicaName : String := p.process.machine.replicaName

/-- The transactions it has accepted. -/
abbrev accepted : List Transaction := p.process.accepted

/-- What it newly accepts, by the process with number `self`. -/
def queued (self : ℕ) (k : Action) : List (Traced Transaction) :=
  (p.process.queued k).map (⟨·, some ⟨self, p.accepted.length⟩⟩)

/-- A local action of the process with number `self`. -/
def act (self : ℕ) (k : Action) : Incarnation where
  process := (p.process.act k).1
  running := p.running
  executed := if (p.process.act k).1.machine.replica.executedList = [] then [] else p.executed
  outstanding := p.outstanding ++ p.queued self k
  applied := p.applied
  executed_eq := by
    split
    · simp [*]
    · rename_i h
      rw [p.executed_eq, (p.process.executedList_act k).resolve_right h]
  outstanding_eq := by
    simp [p.process.outstanding_act k, p.outstanding_eq, queued, Function.comp_def]
  mem_applied y hy := by
    split at hy
    · exact absurd hy List.not_mem_nil
    · exact p.mem_applied y hy

/-- What it multicasts: outstanding transactions. -/
def actSent (k : Action) : List (Traced Packet) :=
  Traced.label (p.process.act k).2 (p.outstanding.map Traced.origin)

/-- The delivery of a message. -/
def receive (x : Traced Packet) : Incarnation where
  process := p.process.receive x.value
  running := p.running
  executed :=
    if p.process.ledger.Executes x.value.transaction
    then p.executed ++ [x.map Packet.transaction] else p.executed
  outstanding :=
    if AdvancedListener.Consumes p.process.machine x.value.transaction
    then p.outstanding.eraseP (·.value.uniqueId = x.value.transaction.uniqueId)
    else p.outstanding
  applied :=
    if p.process.ledger.Executes x.value.transaction then p.applied ++ [x.origin] else p.applied
  executed_eq := by
    show _ = (p.process.receive x.value).ledger.executed
    have heq : p.executed.map Traced.value = p.process.ledger.executed := p.executed_eq
    rw [Process.ledger_receive]
    split
    · rename_i h
      rw [Ledger.deliver_of_executes h, List.map_append, heq]
      rfl
    · rename_i h
      rcases p.process.ledger.deliver_cases x.value.transaction with ⟨hx, -⟩ | ⟨-, hd⟩ | ⟨-, -, hd⟩
      · exact absurd hx h
      · rw [hd, heq]
      · rw [hd, heq]
  outstanding_eq := by
    split
    · rename_i h
      rw [Process.outstanding, Process.receive,
        AdvancedListener.outstandingCollection_of_consumes h, ← Process.outstanding,
        ← p.outstanding_eq, List.eraseP_map]
      rfl
    · rename_i h
      rw [Process.outstanding, Process.receive,
        AdvancedListener.outstandingCollection_of_not_consumes h, p.outstanding_eq]
  mem_applied y hy := by
    split
    · rename_i h
      rw [if_pos h] at hy
      rcases List.mem_append.mp hy with hy | hy
      · exact List.mem_append_left _ (p.mem_applied y hy)
      · obtain rfl := List.mem_singleton.mp hy
        exact List.mem_append_right _ (List.mem_singleton.mpr rfl)
    · rename_i h
      rw [if_neg h] at hy
      exact p.mem_applied y hy

/-- The delivery of a membership. -/
def view (v : View String) : Incarnation where
  process := (p.process.view id v).1
  running := p.running
  executed := p.executed
  outstanding := p.outstanding
  applied := p.applied
  executed_eq := by rw [Process.view_replica, p.executed_eq]
  outstanding_eq := by rw [Process.outstanding, Process.view_replica, p.outstanding_eq]
  mem_applied := p.mem_applied

/-- What it multicasts: its balance and executed transactions. -/
def viewSent (v : View String) : List (Traced Packet) :=
  Traced.label (p.process.view id v).2 (none :: p.executed.map Traced.origin)

end Incarnation

/-! ## The network -/

/-- All processes there have been, in the order in which they were started, and all that
was ever multicast. -/
structure Network where
  processes : List Incarnation
  sent : List (Traced Packet)

namespace Network

/-- What can happen next. -/
inductive Event where
  /-- A process is started. -/
  | start (replicaName privateGroup : String) (numberOfReplicas : ℤ)
  /-- A process leaves or crashes. -/
  | stop (i : ℕ)
  /-- A local action at a process. -/
  | act (i : ℕ) (k : Action)
  /-- A process is told of a membership. -/
  | view (i : ℕ) (v : View String)
  /-- A process is delivered the message with number `u`. -/
  | deliver (i u : ℕ)

/-- Nothing has happened. -/
def empty : Network := ⟨[], []⟩

/-- The state of a running process. -/
def running? (s : Network) (i : ℕ) : Option Incarnation := s.processes[i]?.filter (·.running)

/-- A process moves on and multicasts. -/
def advance (s : Network) (i : ℕ) (p : Incarnation) (sent : List (Traced Packet)) : Network :=
  ⟨s.processes.set i p, s.sent ++ sent⟩

/-- Processes that come and go. -/
def machine : Machine Network Event where
  step s
    | .start replicaName privateGroup numberOfReplicas =>
        some { s with
          processes := s.processes ++ [.new replicaName privateGroup numberOfReplicas] }
    | .stop i => (s.running? i).map fun p ↦ s.advance i { p with running := false } []
    | .act i k => (s.running? i).map fun p ↦ s.advance i (p.act i k) (p.actSent k)
    | .view i v => (s.running? i).map fun p ↦ s.advance i (p.view v) (p.viewSent v)
    | .deliver i u => (s.running? i).bind fun p ↦ s.sent[u]?.map fun x ↦
        s.advance i (p.receive x) []

end Network

/-- The filters of a process, on a message, match a transaction with itself only: one that
is discarded has been applied, and an entry that leaves the outstanding collection is the
one delivered. -/
def Incarnation.Matches (p : Incarnation) (x : Traced Packet) : Prop :=
  (x.value.transaction.isMonetary →
    x.value.transaction.uniqueId ∈ ids p.process.machine.replica.executedList →
      x.origin ∈ p.applied) ∧
  ∀ y ∈ p.outstanding, y ∉ (p.receive x).outstanding → y.origin = x.origin

/-- A step in which transactions are not mistaken for others; without a message, nothing
leaves an outstanding collection. -/
def Genuine (s : Network) : Network.Event → Prop
  | .start _ _ _ | .stop _ => True
  | .act i k => ∀ p ∈ s.running? i, ∀ y ∈ p.outstanding, y ∈ (p.act i k).outstanding
  | .view i v => ∀ p ∈ s.running? i, ∀ y ∈ p.outstanding, y ∈ (p.view v).outstanding
  | .deliver i u => ∀ p ∈ s.running? i, ∀ x ∈ s.sent[u]?, p.Matches x

/-- Where a message is delivered, of all processes that were started under one name at most one
has accepted transactions, and none has accepted more than its counter can tell apart. -/
def Unambiguous (s : Network) : Network.Event → Prop
  | .deliver _ _ =>
      (s.processes.Pairwise fun p q ↦
        p.accepted ≠ [] → q.accepted ≠ [] → p.replicaName ≠ q.replicaName) ∧
      ∀ p ∈ s.processes, p.accepted.length ≤ 2 ^ 32
  | .start _ _ _ | .stop _ | .act _ _ | .view _ _ => True

instance (p : Incarnation) (x : Traced Packet) : Decidable (p.Matches x) := by
  unfold Incarnation.Matches
  infer_instance

instance (s : Network) : DecidablePred (Genuine s)
  | .start _ _ _ | .stop _ => instDecidableTrue
  | .act i k => inferInstanceAs
      (Decidable (∀ p ∈ s.running? i, ∀ y ∈ p.outstanding, y ∈ (p.act i k).outstanding))
  | .view i v => inferInstanceAs
      (Decidable (∀ p ∈ s.running? i, ∀ y ∈ p.outstanding, y ∈ (p.view v).outstanding))
  | .deliver i u => inferInstanceAs
      (Decidable (∀ p ∈ s.running? i, ∀ x ∈ s.sent[u]?, p.Matches x))

instance (s : Network) : DecidablePred (Unambiguous s)
  | .deliver _ _ => inferInstanceAs (Decidable (_ ∧ _))
  | .start _ _ _ | .stop _ | .act _ _ | .view _ _ => instDecidableTrue

/-! ## Origins are right -/

/-- An entry has the origin it says: that process has accepted it at that place. -/
def Sound (ps : List Incarnation) (y : Traced Transaction) : Prop :=
  ∃ i n p, y.origin = some ⟨i, n⟩ ∧ ps[i]? = some p ∧ p.accepted[n]? = some y.value

/-- Processes have only gone on accepting. -/
def Extends (ps ps' : List Incarnation) : Prop :=
  ∀ (i : ℕ) (p : Incarnation), ps[i]? = some p →
    ∃ p', ps'[i]? = some p' ∧ p.accepted <+: p'.accepted

theorem Sound.mono {ps ps' : List Incarnation} {y : Traced Transaction} (h : Sound ps y)
    (hps : Extends ps ps') : Sound ps' y := by
  obtain ⟨i, n, p, ho, hp, hn⟩ := h
  obtain ⟨p', hp', zs, hzs⟩ := hps i p hp
  refine ⟨i, n, p', ho, hp', ?_⟩
  rw [← hzs, List.getElem?_append_left (List.getElem?_eq_some_iff.mp hn).1, hn]

/-- **An id has one origin**: the name in it tells the process, and the number the place. -/
theorem Sound.origin_eq {ps : List Incarnation} {y z : Traced Transaction}
    (hnames : ps.Pairwise fun p q ↦
      p.accepted ≠ [] → q.accepted ≠ [] → p.replicaName ≠ q.replicaName)
    (hnum : ∀ p ∈ ps, p.process.Numbered) (hlen : ∀ p ∈ ps, p.accepted.length ≤ 2 ^ 32)
    (hy : Sound ps y) (hz : Sound ps z) (hid : y.value.uniqueId = z.value.uniqueId) :
    y.origin = z.origin := by
  have hname : ∀ {y : Transaction} {i n : ℕ} {p : Incarnation}, ps[i]? = some p →
      p.accepted[n]? = some y → n < 2 ^ 32 ∧ y.uniqueId = uniqueId p.replicaName (.after n) := by
    intro y i n p hp hn
    have hmem := List.mem_of_getElem? hp
    exact ⟨Nat.lt_of_lt_of_le (List.getElem?_eq_some_iff.mp hn).1 (hlen p hmem),
      (hnum p hmem).uniqueId_eq hn⟩
  obtain ⟨i, n, p, ho, hp, hn⟩ := hy
  obtain ⟨i', n', p', ho', hp', hn'⟩ := hz
  obtain ⟨hlt, hy⟩ := hname hp hn
  obtain ⟨hlt', hz⟩ := hname hp' hn'
  obtain ⟨hname, hcounters⟩ := uniqueId_inj.mp (hy.symm.trans (hid.trans hz))
  have hi : i = i' := by
    obtain ⟨hlt, rfl⟩ := List.getElem?_eq_some_iff.mp hp
    obtain ⟨hlt', rfl⟩ := List.getElem?_eq_some_iff.mp hp'
    have haccepted := List.ne_nil_of_mem (List.mem_of_getElem? hn)
    have haccepted' := List.ne_nil_of_mem (List.mem_of_getElem? hn')
    rw [List.pairwise_iff_getElem] at hnames
    rcases lt_trichotomy i i' with h | h | h
    · exact absurd hname (hnames i i' hlt hlt' h haccepted haccepted')
    · exact h
    · exact absurd hname.symm (hnames i' i hlt' hlt h haccepted' haccepted)
  rw [ho, ho', hi, AtomicInteger.after_inj hlt hlt' hcounters]

namespace Network

variable {s s' : Network} {e : Event} {i : ℕ} {p p' : Incarnation} {sent : List (Traced Packet)}

/-- All origins are right. -/
structure Inv (s : Network) : Prop where
  numbered : ∀ p ∈ s.processes, p.process.Numbered
  executed : ∀ p ∈ s.processes, ∀ y ∈ p.executed, Sound s.processes y
  outstanding : ∀ p ∈ s.processes, ∀ y ∈ p.outstanding, Sound s.processes y
  sent : ∀ x ∈ s.sent, x.value.transaction.type = .updateBalance ∨
    Sound s.processes (x.map Packet.transaction)

theorem inv_empty : Inv empty where
  numbered _ hp := absurd hp List.not_mem_nil
  executed _ hp := absurd hp List.not_mem_nil
  outstanding _ hp := absurd hp List.not_mem_nil
  sent _ hx := absurd hx List.not_mem_nil

theorem running?_eq_some (h : s.running? i = some p) : s.processes[i]? = some p :=
  (Option.filter_eq_some_iff.mp h).1

/-- **Every process on its own**: what holds of a process that starts and is kept by whatever
a process does holds of all processes. -/
theorem forall_step {P : Incarnation → Prop}
    (hnew : ∀ replicaName privateGroup numberOfReplicas,
      P (.new replicaName privateGroup numberOfReplicas))
    (hstop : ∀ p, P p → P { p with running := false }) (hact : ∀ p i k, P p → P (p.act i k))
    (hview : ∀ p v, P p → P (p.view v)) (hreceive : ∀ p x, P p → P (p.receive x))
    (h : ∀ p ∈ s.processes, P p) (hs : machine.step s e = some s') : ∀ p ∈ s'.processes, P p := by
  have hset : ∀ {i p'} {sent : List (Traced Packet)}, P p' →
      ∀ q ∈ (s.advance i p' sent).processes, P q := by
    intro i p' sent hp' q hq
    rcases List.mem_or_eq_of_mem_set hq with hq | rfl
    · exact h q hq
    · exact hp'
  cases e with
  | start replicaName privateGroup numberOfReplicas =>
      obtain rfl := Option.some.inj hs
      refine List.forall_mem_append.mpr ⟨h, fun q hq ↦ ?_⟩
      exact List.mem_singleton.mp hq ▸ hnew _ _ _
  | stop i =>
      obtain ⟨p, hp, rfl⟩ := Option.map_eq_some_iff.mp hs
      exact hset (hstop p (h p (List.mem_of_getElem? (running?_eq_some hp))))
  | act i k =>
      obtain ⟨p, hp, rfl⟩ := Option.map_eq_some_iff.mp hs
      exact hset (hact p i k (h p (List.mem_of_getElem? (running?_eq_some hp))))
  | view i v =>
      obtain ⟨p, hp, rfl⟩ := Option.map_eq_some_iff.mp hs
      exact hset (hview p v (h p (List.mem_of_getElem? (running?_eq_some hp))))
  | deliver i u =>
      obtain ⟨p, hp, hs⟩ := Option.bind_eq_some_iff.mp hs
      obtain ⟨x, -, rfl⟩ := Option.map_eq_some_iff.mp hs
      exact hset (hreceive p x (h p (List.mem_of_getElem? (running?_eq_some hp))))

theorem extends_set (hp : s.processes[i]? = some p) (ha : p.accepted <+: p'.accepted) :
    Extends s.processes (s.processes.set i p') := by
  intro j q hq
  by_cases hji : i = j
  · subst hji
    obtain rfl : p = q := Option.some.inj (hp.symm.trans hq)
    refine ⟨p', ?_, ha⟩
    rw [List.getElem?_set_self (List.getElem?_eq_some_iff.mp hp).1]
  · exact ⟨q, by rw [List.getElem?_set_ne hji, hq], List.prefix_refl _⟩

/-- A process moves on. -/
theorem Inv.advance (h : Inv s) (hp : s.processes[i]? = some p)
    (ha : p.accepted <+: p'.accepted) (hnum : p'.process.Numbered)
    (hexecuted : ∀ y ∈ p'.executed, Sound (s.processes.set i p') y)
    (houtstanding : ∀ y ∈ p'.outstanding, Sound (s.processes.set i p') y)
    (hsent : ∀ x ∈ sent, x.value.transaction.type = .updateBalance ∨
      Sound (s.processes.set i p') (x.map Packet.transaction)) : Inv (s.advance i p' sent) := by
  have hext := extends_set hp ha
  refine ⟨fun q hq ↦ ?_, fun q hq y hy ↦ ?_, fun q hq y hy ↦ ?_, fun x hx ↦ ?_⟩
  · rcases List.mem_or_eq_of_mem_set hq with hq | rfl
    · exact h.numbered q hq
    · exact hnum
  · rcases List.mem_or_eq_of_mem_set hq with hq | rfl
    · exact (h.executed q hq y hy).mono hext
    · exact hexecuted y hy
  · rcases List.mem_or_eq_of_mem_set hq with hq | rfl
    · exact (h.outstanding q hq y hy).mono hext
    · exact houtstanding y hy
  · rcases List.mem_append.mp hx with hx | hx
    · exact (h.sent x hx).imp id fun hs ↦ hs.mono hext
    · exact hsent x hx

/-- A process starts. -/
theorem Inv.start (h : Inv s) (replicaName privateGroup : String) (numberOfReplicas : ℤ) :
    Inv { s with
      processes := s.processes ++ [.new replicaName privateGroup numberOfReplicas] } := by
  have hext : Extends s.processes
      (s.processes ++ [.new replicaName privateGroup numberOfReplicas]) := fun j q hq ↦
    ⟨q, by rw [List.getElem?_append_left (List.getElem?_eq_some_iff.mp hq).1, hq],
      List.prefix_refl _⟩
  have hcases : ∀ {q}, q ∈ s.processes ++ [.new replicaName privateGroup numberOfReplicas] →
      q ∈ s.processes ∨ q = .new replicaName privateGroup numberOfReplicas := fun hq ↦
    (List.mem_append.mp hq).imp id List.mem_singleton.mp
  refine ⟨fun q hq ↦ ?_, fun q hq y hy ↦ ?_, fun q hq y hy ↦ ?_, fun x hx ↦ ?_⟩
  · rcases hcases hq with hq | rfl
    · exact h.numbered q hq
    · exact ⟨rfl, rfl⟩
  · rcases hcases hq with hq | rfl
    · exact (h.executed q hq y hy).mono hext
    · exact absurd hy List.not_mem_nil
  · rcases hcases hq with hq | rfl
    · exact (h.outstanding q hq y hy).mono hext
    · exact absurd hy List.not_mem_nil
  · exact (h.sent x hx).imp id fun hs ↦ hs.mono hext

/-- A process does something of its own. -/
theorem Inv.act (h : Inv s) (hp : s.processes[i]? = some p) (k : Action) :
    Inv (s.advance i (p.act i k) (p.actSent k)) := by
  have hmem := List.mem_of_getElem? hp
  have ha : p.accepted <+: (p.act i k).accepted := ⟨_, (p.process.accepted_act k).symm⟩
  have hext := extends_set hp ha
  refine h.advance hp ha ((h.numbered p hmem).act k)
    (fun y hy ↦ ?_) (fun y hy ↦ ?_) fun x hx ↦ .inr ?_
  · have hy : y ∈ p.executed := by
      rw [Incarnation.act] at hy
      dsimp only at hy
      split at hy
      · exact absurd hy List.not_mem_nil
      · exact hy
    exact (h.executed p hmem y hy).mono hext
  · rcases List.mem_append.mp hy with hy | hy
    · exact (h.outstanding p hmem y hy).mono hext
    · obtain ⟨t, ht, rfl⟩ := List.mem_map.mp hy
      refine ⟨i, p.accepted.length, p.act i k, rfl,
        List.getElem?_set_self (List.getElem?_eq_some_iff.mp hp).1, ?_⟩
      rcases p.process.queued_eq k with hq | ⟨u, hq⟩ <;> rw [hq] at ht
      · exact absurd ht List.not_mem_nil
      · obtain rfl := List.mem_singleton.mp ht
        show (p.process.act k).1.accepted[_]? = _
        rw [p.process.accepted_act k, hq, List.getElem?_concat_length]
  · have hx := (Traced.label_isPrefix (p.process.act_isPrefix k) _).subset hx
    rw [Process.wrap, ← p.outstanding_eq, Traced.label_map] at hx
    obtain ⟨y, hy, rfl⟩ := List.mem_map.mp hx
    exact (h.outstanding p hmem y hy).mono hext

/-- A process is told of a membership. -/
theorem Inv.view (h : Inv s) (hp : s.processes[i]? = some p) (v : View String) :
    Inv (s.advance i (p.view v) (p.viewSent v)) := by
  have hmem := List.mem_of_getElem? hp
  have hext : Extends s.processes (s.processes.set i (p.view v)) :=
    extends_set hp (List.prefix_refl _)
  refine h.advance hp (List.prefix_refl _) ((h.numbered p hmem).view id v)
    (fun y hy ↦ (h.executed p hmem y hy).mono hext)
    (fun y hy ↦ (h.outstanding p hmem y hy).mono hext) fun x hx ↦ ?_
  have hx := (Traced.label_isPrefix (p.process.view_isPrefix id v) _).subset hx
  rw [Process.wrap, ← p.executed_eq, List.map_cons, Traced.label, List.zipWith_cons_cons,
    ← Traced.label, Traced.label_map] at hx
  rcases List.mem_cons.mp hx with rfl | hx
  · exact .inl rfl
  · obtain ⟨y, hy, rfl⟩ := List.mem_map.mp hx
    exact .inr ((h.executed p hmem y hy).mono hext)

/-- A process is delivered a message. -/
theorem Inv.receive (h : Inv s) (hp : s.processes[i]? = some p) {x : Traced Packet}
    (hx : x ∈ s.sent) : Inv (s.advance i (p.receive x) []) := by
  have hmem := List.mem_of_getElem? hp
  have hext : Extends s.processes (s.processes.set i (p.receive x)) :=
    extends_set hp (List.prefix_refl _)
  refine h.advance hp (List.prefix_refl _) (h.numbered p hmem).receive
    (fun y hy ↦ ?_) (fun y hy ↦ ?_) fun x hx ↦ absurd hx List.not_mem_nil
  · rw [Incarnation.receive] at hy
    dsimp only at hy
    split at hy
    · rename_i hexecutes
      rcases List.mem_append.mp hy with hy | hy
      · exact (h.executed p hmem y hy).mono hext
      · obtain rfl := List.mem_singleton.mp hy
        exact ((h.sent x hx).resolve_left hexecutes.ne_updateBalance).mono hext
    · exact (h.executed p hmem y hy).mono hext
  · refine (h.outstanding p hmem y ?_).mono hext
    rw [Incarnation.receive] at hy
    dsimp only at hy
    split at hy
    · exact List.eraseP_subset hy
    · exact hy

/-- Every event keeps the origins right. -/
theorem inv_step (h : Inv s) (hs : machine.step s e = some s') : Inv s' := by
  cases e with
  | start replicaName privateGroup numberOfReplicas =>
      obtain rfl := Option.some.inj hs
      exact h.start _ _ _
  | stop i =>
      obtain ⟨p, hp, rfl⟩ := Option.map_eq_some_iff.mp hs
      have hp := running?_eq_some hp
      have hmem := List.mem_of_getElem? hp
      have hext : Extends s.processes (s.processes.set i { p with running := false }) :=
        extends_set hp (List.prefix_refl _)
      exact h.advance hp (List.prefix_refl _) (h.numbered p hmem)
        (fun y hy ↦ (h.executed p hmem y hy).mono hext)
        (fun y hy ↦ (h.outstanding p hmem y hy).mono hext) fun x hx ↦ absurd hx List.not_mem_nil
  | act i k =>
      obtain ⟨p, hp, rfl⟩ := Option.map_eq_some_iff.mp hs
      exact h.act (running?_eq_some hp) k
  | view i v =>
      obtain ⟨p, hp, rfl⟩ := Option.map_eq_some_iff.mp hs
      exact h.view (running?_eq_some hp) v
  | deliver i u =>
      obtain ⟨p, hp, hs⟩ := Option.bind_eq_some_iff.mp hs
      obtain ⟨x, hx, rfl⟩ := Option.map_eq_some_iff.mp hs
      exact h.receive (running?_eq_some hp) (List.mem_of_getElem? hx)

/-- With right origins and ids to tell them by, the filters make no mistake. -/
theorem Inv.matches (h : Inv s) {u : ℕ} (he : Unambiguous s (.deliver i u))
    (hp : s.processes[i]? = some p) {x : Traced Packet} (hx : x ∈ s.sent) : p.Matches x := by
  have hmem := List.mem_of_getElem? hp
  have horigin : ∀ {y}, Sound s.processes y → x.value.transaction.type ≠ .updateBalance →
      y.value.uniqueId = x.value.transaction.uniqueId → y.origin = x.origin :=
    fun hy hty hid ↦
      Sound.origin_eq he.1 h.numbered he.2 hy ((h.sent x hx).resolve_left hty) hid
  refine ⟨fun hm hid ↦ ?_, fun y hy hgone ↦ ?_⟩
  · rw [← p.executed_eq, ids, List.map_map] at hid
    obtain ⟨y, hy, hid⟩ := List.mem_map.mp hid
    have hty := Transaction.ne_updateBalance hm
    exact horigin (h.executed p hmem y hy) hty hid ▸ p.mem_applied y hy
  · rw [Incarnation.receive] at hgone
    dsimp only at hgone
    split at hgone
    · rename_i hconsumes
      refine horigin (h.outstanding p hmem y hy) hconsumes.ne_updateBalance ?_
      by_contra hid
      exact hgone ((List.mem_eraseP_of_neg (by simpa using hid)).mpr hy)
    · exact absurd hy hgone

/-- A step from a state with right origins makes no mistake. -/
theorem Inv.genuine (h : Inv s) (he : Unambiguous s e) : Genuine s e := by
  cases e with
  | start replicaName privateGroup numberOfReplicas => trivial
  | stop i => trivial
  | act i k => exact fun p _ y hy ↦ List.mem_append_left _ hy
  | view i v => exact fun p _ y hy ↦ hy
  | deliver i u =>
      exact fun p hp x hx ↦ h.matches he (running?_eq_some hp) (List.mem_of_getElem? hx)

end Network

/-- **Transactions and their names.**  In every run in which of the processes under one name only
one accepts transactions, and each accepts at most `2 ^ 32`, no transaction is mistaken for another
one. -/
theorem genuine_of_unambiguous {es : List Network.Event}
    (h : Network.machine.Along Unambiguous .empty es) :
    Network.machine.Along Genuine .empty es :=
  Machine.along_of_invariant (fun _ _ _ h _ ↦ Network.inv_step h) (fun _ _ ↦ Network.Inv.genuine)
    Network.inv_empty h

/-! ## The ids of all queued transactions -/

namespace Network

variable {s s' : Network} {e : Event} {es : List Event}

/-- All transactions that have been queued, process by process. -/
def queued (s : Network) : List Transaction := s.processes.flatMap Incarnation.accepted

/-- Every process numbers what it queues. -/
theorem numbered_step (h : ∀ p ∈ s.processes, p.process.Numbered)
    (hs : machine.step s e = some s') : ∀ p ∈ s'.processes, p.process.Numbered :=
  forall_step (P := fun p ↦ p.process.Numbered) (fun _ _ _ ↦ ⟨rfl, rfl⟩) (fun _ h ↦ h)
    (fun _ _ k h ↦ h.act k) (fun _ v h ↦ h.view id v) (fun _ _ h ↦ h.receive) h hs

/-- **Unique ids.**  In every run in which no two processes are started under one name and each
queues fewer than `2 ^ 32` transactions, no two transactions queued anywhere have one id,
whatever the names are and although the counters turn negative. -/
theorem nodup_ids_queued (hr : machine.run .empty es = some s)
    (hname : (s.processes.map Incarnation.replicaName).Nodup)
    (hlen : ∀ p ∈ s.processes, p.accepted.length < 2 ^ 32) : (ids s.queued).Nodup := by
  have hnum : ∀ p ∈ s.processes, p.process.Numbered :=
    Machine.run_preserves (P := fun s : Network ↦ ∀ p ∈ s.processes, p.process.Numbered)
      (fun _ _ _ ↦ numbered_step) (fun _ hp ↦ absurd hp List.not_mem_nil) hr
  rw [queued, ids, List.map_flatMap, List.nodup_flatMap]
  constructor
  · intro p hp
    exact (hnum p hp).nodup_ids (hlen p hp).le
  · -- the name can be read off an id
    rw [List.Nodup, List.pairwise_map] at hname
    refine hname.imp_of_mem fun hp hq hne ↦ ?_
    rintro x hx hy
    obtain ⟨t, ht, rfl⟩ := List.mem_map.mp hx
    obtain ⟨u, hu, hid⟩ := List.mem_map.mp hy
    exact hne (((hnum _ hp).issued ht).name_eq ((hnum _ hq).issued hu) hid.symm)

end Network

/-- Two processes, the second of which is named like a transaction of the first. -/
def similarNames : List Network.Event :=
  [.start "Rep" "#Rep-17" 1, .start "Rep 1" "#Rep 1-42" 1,
    .act 1 (.command "getSyncedBalance"), .act 0 (.command "deposit 1"),
    .act 0 (.command "addInterest 2"), .act 1 (.command "deposit 3")]

theorem Network.nodup_ids_queued_similarNames : ∃ s, machine.run .empty similarNames = some s ∧
    ids s.queued = ["Rep 0", "Rep 1", "Rep 1 0", "Rep 1 1"] ∧ (ids s.queued).Nodup := by
  have h : (machine.run .empty similarNames).any (fun s ↦
      (s.processes.map Incarnation.replicaName).Nodup ∧
      (∀ p ∈ s.processes, p.accepted.length < 2 ^ 32) ∧
      ids s.queued = ["Rep 0", "Rep 1", "Rep 1 0", "Rep 1 1"]) := by decide +kernel
  obtain ⟨s, hs, h⟩ := (Option.any_eq_true _ _).mp h
  obtain ⟨hname, hlen, hids⟩ := of_decide_eq_true h
  exact ⟨s, hs, hids, nodup_ids_queued hs hname hlen⟩

/-! ## A name used again -/

/-- `Rep1` and `Rep2` share a deposit of 100, which the one with number `i` has accepted, and `Rep1`
goes.  It is started again, is given the balance, and accepts a deposit of 50, which is delivered to
both. -/
def restart (i : ℕ) : List Network.Event :=
  [.start "Rep1" "#Rep1-17" 2, .view 0 ⟨.join, "#Rep1-17", ["#Rep1-17"]⟩,
    .start "Rep2" "#Rep2-42" 2,
    .view 0 ⟨.join, "#Rep2-42", ["#Rep1-17", "#Rep2-42"]⟩,
    .view 1 ⟨.join, "#Rep2-42", ["#Rep1-17", "#Rep2-42"]⟩,
    .deliver 0 0, .deliver 1 0,
    .act i (.command "deposit 100"), .act i (.tick 1), .deliver 0 1, .deliver 1 1,
    .stop 0, .view 1 ⟨.disconnect, "#Rep1-17", ["#Rep2-42"]⟩,
    .start "Rep1" "#Rep1-85" 2,
    .view 1 ⟨.join, "#Rep1-85", ["#Rep2-42", "#Rep1-85"]⟩,
    .view 2 ⟨.join, "#Rep1-85", ["#Rep2-42", "#Rep1-85"]⟩,
    .deliver 1 2, .deliver 2 2,
    .act 2 (.command "deposit 50"), .act 2 (.tick 1), .deliver 2 3, .deliver 1 3]

/-- If the first deposit was one of `Rep2`, all is well. -/
theorem genuine_of_unambiguous_restart : Network.machine.Along Genuine .empty (restart 1) :=
  genuine_of_unambiguous (by decide +kernel)

/-- If it was one of `Rep1`, both deposits are called `Rep1 0`, and `Rep2` discards the second. -/
theorem not_genuine_restart : ¬ Network.machine.Along Genuine .empty (restart 0) := by
  decide +kernel

end ReplicatedBank
