import Mathlib.Data.List.Basic
import Mathlib.Logic.Function.Basic
import ReplicatedBank.Distributed.Automaton
import ReplicatedBank.Distributed.Machine

/-!
# FIFO multicast in a fixed group

The weakest reliable multicast: every message reaches every member, its sender
included, and each member delivers the messages of one sender in the order in
which they were sent.  Messages of different senders may be delivered in any
order, and differently at different members.

The state keeps each sender's whole stream (`sent`) and each receiver's whole
history (`delivered`); what is in flight is the difference.  The only fact about
the transport that proofs need is `received_isPrefix`: what a member has received
from a sender is a prefix of that sender's stream.
-/

namespace Distributed.Fifo

variable {ι σ μ κ τ : Type*}

/-- A group in operation. -/
structure State (ι σ μ : Type*) where
  /-- The state of each member. -/
  node : ι → σ
  /-- Everything each member has multicast, in order. -/
  sent : ι → List μ
  /-- Everything each member has delivered, in order, with its sender. -/
  delivered : ι → List (ι × μ)

/-- What can happen next. -/
inductive Event (ι κ : Type*) where
  /-- A local action at a member. -/
  | act (i : ι) (k : κ)
  /-- A member delivers the next message of a sender. -/
  | deliver (receiver sender : ι)
deriving DecidableEq, Repr

/-- A group that has not communicated yet. -/
def start (node : ι → σ) : State ι σ μ where
  node := node
  sent := fun _ ↦ []
  delivered := fun _ ↦ []

variable [DecidableEq ι]

/-- What a member has delivered of one sender's messages. -/
def State.received (s : State ι σ μ) (r i : ι) : List μ :=
  (s.delivered r).filterMap fun p ↦ if p.1 = i then some p.2 else none

/-- What a member has delivered, of any sender. -/
def State.history (s : State ι σ μ) (r : ι) : List μ := (s.delivered r).map Prod.snd

/-- The next message a member has to deliver of a sender's stream. -/
def State.next? (s : State ι σ μ) (r i : ι) : Option μ :=
  (s.sent i)[(s.received r i).length]?

/-- A member takes on its new state and multicasts. -/
def State.commit (s : State ι σ μ) (i : ι) (next : σ × List μ) : State ι σ μ :=
  { s with
    node := Function.update s.node i next.1
    sent := Function.update s.sent i (s.sent i ++ next.2) }

/-- A message is recorded as delivered. -/
def State.record (s : State ι σ μ) (r i : ι) (m : μ) : State ι σ μ :=
  { s with delivered := Function.update s.delivered r (s.delivered r ++ [(i, m)]) }

/-- A group of automata over FIFO multicast. -/
def machine (A : Automaton ι σ μ κ) : Machine (State ι σ μ) (Event ι κ) where
  step s
    | .act i k => some (s.commit i (A.act (s.node i) k))
    | .deliver r i => (s.next? r i).map fun m ↦
        (s.commit r (A.receive (s.node r) m)).record r i m

variable {A : Automaton ι σ μ κ} {s s' : State ι σ μ} {e : Event ι κ} {es : List (Event ι κ)}
variable {i j r : ι} {k : κ} {m : μ} {next : σ × List μ}

theorem step_act : (machine A).step s (.act i k) = some s' ↔
    s' = s.commit i (A.act (s.node i) k) := by
  simp [machine, eq_comm]

theorem step_deliver : (machine A).step s (.deliver r i) = some s' ↔
    ∃ m, s.next? r i = some m ∧ s' = (s.commit r (A.receive (s.node r) m)).record r i m := by
  simp only [machine, Option.map_eq_some_iff, eq_comm (a := s')]

/-! ## Streams and histories -/

@[simp] theorem commit_node_self : (s.commit i next).node i = next.1 := by simp [State.commit]
@[simp] theorem commit_node_of_ne (h : j ≠ i) : (s.commit i next).node j = s.node j := by
  simp [State.commit, h]
@[simp] theorem commit_sent_self : (s.commit i next).sent i = s.sent i ++ next.2 := by
  simp [State.commit]
@[simp] theorem commit_sent_of_ne (h : j ≠ i) : (s.commit i next).sent j = s.sent j := by
  simp [State.commit, h]
@[simp] theorem commit_delivered : (s.commit i next).delivered = s.delivered := rfl
@[simp] theorem commit_received : (s.commit i next).received r j = s.received r j := rfl
@[simp] theorem commit_history : (s.commit i next).history r = s.history r := rfl

omit [DecidableEq ι] in
@[simp] theorem start_history (node : ι → σ) : (start node : State ι σ μ).history r = [] := rfl

@[simp] theorem record_node : (s.record r i m).node = s.node := rfl
@[simp] theorem record_sent : (s.record r i m).sent = s.sent := rfl
@[simp] theorem record_history_self : (s.record r i m).history r = s.history r ++ [m] := by
  simp [State.record, State.history]
@[simp] theorem record_history_of_ne (h : j ≠ r) :
    (s.record r i m).history j = s.history j := by
  simp [State.record, State.history, h]
@[simp] theorem record_received_self : (s.record r i m).received r i = s.received r i ++ [m] := by
  simp [State.record, State.received]
@[simp] theorem record_received_of_ne_sender (h : j ≠ i) :
    (s.record r i m).received r j = s.received r j := by
  simp [State.record, State.received, Ne.symm h]
@[simp] theorem record_received_of_ne (h : j ≠ r) (i' : ι) :
    (s.record r i m).received j i' = s.received j i' := by
  simp [State.record, State.received, h]

theorem sent_isPrefix_commit (s : State ι σ μ) (i : ι) (next : σ × List μ) (j : ι) :
    s.sent j <+: (s.commit i next).sent j := by
  by_cases h : j = i
  · subst h
    rw [commit_sent_self]
    exact List.prefix_append _ _
  · exact ⟨[], by rw [commit_sent_of_ne h, List.append_nil]⟩

/-- The next message extends what has been received to a longer prefix. -/
theorem received_concat_isPrefix (hp : s.received r i <+: s.sent i)
    (h : s.next? r i = some m) : s.received r i ++ [m] <+: s.sent i := by
  obtain ⟨t, ht⟩ := hp
  rw [State.next?, ← ht, List.getElem?_append_right (Nat.le_refl _), Nat.sub_self] at h
  cases t with
  | nil => simp at h
  | cons a t =>
      obtain rfl : a = m := by simpa using h
      exact ⟨t, by rw [← ht]; simp⟩

theorem received_isPrefix_step (hp : ∀ r i, s.received r i <+: s.sent i)
    (h : (machine A).step s e = some s') (r i : ι) : s'.received r i <+: s'.sent i := by
  cases e with
  | act j k =>
      rw [step_act.mp h]
      exact (hp r i).trans (sent_isPrefix_commit s j _ i)
  | deliver r' j =>
      obtain ⟨m, hm, rfl⟩ := step_deliver.mp h
      refine List.IsPrefix.trans ?_ (sent_isPrefix_commit s r' _ i)
      by_cases hr : r = r'
      · subst hr
        by_cases hi : i = j
        · subst hi
          simpa using received_concat_isPrefix (hp r i) hm
        · simpa [hi] using hp r i
      · simpa [hr] using hp r i

/-- **The guarantee of the transport.**  Along every run, what a member has
received of a sender is a prefix of the sender's stream. -/
theorem received_isPrefix {node : ι → σ} (h : (machine A).run (start node) es = some s)
    (r i : ι) : s.received r i <+: s.sent i :=
  Machine.run_preserves (P := fun s : State ι σ μ ↦ ∀ r i, s.received r i <+: s.sent i)
    (fun _ _ _ hp hs ↦ received_isPrefix_step hp hs)
    (s := start node) (fun _ _ ↦ List.nil_prefix) h r i

omit [DecidableEq ι] in
theorem mem_delivered_history (h : m ∈ s.history r) : ∃ i, (i, m) ∈ s.delivered r := by
  obtain ⟨⟨i, m'⟩, hm, rfl⟩ := List.mem_map.mp h
  exact ⟨i, hm⟩

theorem mem_received : m ∈ s.received r i ↔ (i, m) ∈ s.delivered r := by
  simp only [State.received, List.mem_filterMap, Prod.exists]
  constructor
  · rintro ⟨j, m', hm, h⟩
    by_cases hj : j = i
    · obtain rfl : m' = m := by simpa [hj] using h
      exact hj ▸ hm
    · simp [hj] at h
  · exact fun h ↦ ⟨i, m, h, by simp⟩

/-- Messages that only one member sends are received in the order of its stream: a
property that singles out messages of one sender selects from the history what it
selects from that sender's messages. -/
theorem filter_history_eq_filter_received {p : μ → Bool}
    (h : ∀ j m, (j, m) ∈ s.delivered r → p m → j = i) :
    (s.history r).filter p = (s.received r i).filter p := by
  unfold State.history State.received
  generalize s.delivered r = l at h ⊢
  induction l with
  | nil => rfl
  | cons q l ih =>
      have ih := ih fun j m hm ↦ h j m (List.mem_cons_of_mem _ hm)
      by_cases hp : p q.2
      · have hq : q.1 = i := h q.1 q.2 (by simp) hp
        simp [hp, hq, ih]
      · by_cases hq : q.1 = i <;> simp [hp, hq, ih]

/-! ## Rules for runs -/

section

variable {C : State ι σ μ → Event ι κ → Prop}

/-- **Invariants of senders.**  A relation between a member and its own stream that local
actions preserve, and that every message sent so far preserves, holds of every member. -/
theorem stream_invariant {I : ι → σ → List μ → Prop}
    (hact : ∀ s i k, C s (.act i k) → I i (s.node i) (s.sent i) →
      I i (A.act (s.node i) k).1 (s.sent i ++ (A.act (s.node i) k).2))
    (hreceive : ∀ (s : State ι σ μ) r j m, (∀ i, I i (s.node i) (s.sent i)) → m ∈ s.sent j →
      I r (A.receive (s.node r) m).1 (s.sent r ++ (A.receive (s.node r) m).2))
    {node : ι → σ} (h₀ : ∀ i, I i (node i) []) (hc : (machine A).Along C (start node) es)
    (hr : (machine A).run (start node) es = some s) (i : ι) : I i (s.node i) (s.sent i) := by
  have commits : ∀ (s : State ι σ μ) (j : ι) (next : σ × List μ),
      (∀ i, I i (s.node i) (s.sent i)) → I j next.1 (s.sent j ++ next.2) →
      ∀ i, I i ((s.commit j next).node i) ((s.commit j next).sent i) := by
    intro s j next hI hI' i
    by_cases hij : i = j
    · subst hij
      rw [commit_node_self, commit_sent_self]
      exact hI'
    · rw [commit_node_of_ne hij, commit_sent_of_ne hij]
      exact hI i
  refine Machine.run_invariant (P := fun s : State ι σ μ ↦ ∀ i, I i (s.node i) (s.sent i))
    ?_ h₀ hc hr i
  intro s e s' hI hcs hs
  cases e with
  | act j k =>
      rw [step_act.mp hs]
      exact commits s j _ hI (hact s j k hcs (hI j))
  | deliver r j =>
      obtain ⟨m, hm, rfl⟩ := step_deliver.mp hs
      exact commits s r _ hI (hreceive s r j m hI (List.mem_of_getElem? hm))

/-- **Local invariants.**  What local actions and messages preserve at a member holds of
every member, and what holds of every message multicast from such states holds of
every message sent. -/
theorem group_invariant {I : ι → σ → Prop} {J : ι → μ → Prop}
    (hact : ∀ s i k, C s (.act i k) → I i (s.node i) →
      I i (A.act (s.node i) k).1 ∧ ∀ m ∈ (A.act (s.node i) k).2, J i m)
    (hreceive : ∀ r n m, I r n → I r (A.receive n m).1 ∧ ∀ m' ∈ (A.receive n m).2, J r m')
    {node : ι → σ} (h₀ : ∀ i, I i (node i)) (hc : (machine A).Along C (start node) es)
    (hr : (machine A).run (start node) es = some s) (i : ι) :
    I i (s.node i) ∧ ∀ m ∈ s.sent i, J i m := by
  refine stream_invariant (I := fun i n sent ↦ I i n ∧ ∀ m ∈ sent, J i m)
    ?_ ?_ (fun i ↦ ⟨h₀ i, by simp⟩) hc hr i
  · rintro s i k hcs ⟨hI, hJ⟩
    obtain ⟨hI', hJ'⟩ := hact s i k hcs hI
    exact ⟨hI', List.forall_mem_append.mpr ⟨hJ, hJ'⟩⟩
  · intro s r j m hI hm
    obtain ⟨hI', hJ'⟩ := hreceive r _ m (hI r).1
    exact ⟨hI', List.forall_mem_append.mpr ⟨(hI r).2, hJ'⟩⟩

/-- **Observation of histories.**  A view `f` of a member's state that local
actions leave alone and that each message updates by `g` is determined by what
the member has delivered. -/
theorem observe_eq_foldl {τ : Type*} (f : σ → τ) (g : τ → μ → τ)
    (hact : ∀ s i k, C s (.act i k) → f (A.act (s.node i) k).1 = f (s.node i))
    (hreceive : ∀ n m, f (A.receive n m).1 = g (f n) m)
    {node : ι → σ} (hc : (machine A).Along C (start node) es)
    (hr : (machine A).run (start node) es = some s) (i : ι) :
    f (s.node i) = (s.history i).foldl g (f (node i)) := by
  refine Machine.run_invariant
    (P := fun s : State ι σ μ ↦ ∀ i, f (s.node i) = (s.history i).foldl g (f (node i)))
    ?_ (fun _ ↦ rfl) hc hr i
  intro s e s' hI hcs hs j
  cases e with
  | act i k =>
      rw [step_act.mp hs]
      by_cases hj : j = i
      · subst hj
        simpa [hact s j k hcs] using hI j
      · simpa [hj] using hI j
  | deliver r i =>
      obtain ⟨m, -, rfl⟩ := step_deliver.mp hs
      by_cases hj : j = r
      · subst hj
        simp [hreceive, hI j]
      · simpa [hj] using hI j

end

end Distributed.Fifo
