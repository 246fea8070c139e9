import Mathlib.Data.List.Basic
import Mathlib.Logic.Function.Basic
import ReplicatedBank.Distributed.Automaton
import ReplicatedBank.Distributed.Machine

/-!
# Totally ordered multicast in a changing group

The strongest transport: messages and memberships are put into one order, the log, and
every member delivers the log from the point at which it joined.  What is left open is
when a sender's messages are put into the log (in the order in which they were sent,
while the sender is a member) and how far each member has got.

A message is stamped with the position its sender had reached when sending it; with the
log, this tells what the sender knew.  The rule for runs, `history_invariant`, is stated
in these terms: an invariant of a process speaks of the log up to its position and of
everything it has sent, and may use the invariants of the senders of what it delivers.
-/

namespace Distributed.TotalOrder

variable {ι σ μ κ : Type*}

/-- An entry of the log. -/
inductive Entry (ι μ : Type*) where
  /-- A message, with its sender and the sender's position when it was sent. -/
  | message (sender : ι) (stamp : ℕ) (m : μ)
  /-- A membership. -/
  | view (v : View ι)

/-- The message and its stamp, if an entry is a message of the given sender. -/
def Entry.of [DecidableEq ι] (i : ι) : Entry ι μ → Option (ℕ × μ)
  | .message j w m => if j = i then some (w, m) else none
  | .view _ => none

/-- The message in an entry. -/
def Entry.message? : Entry ι μ → Option μ
  | .message _ _ m => some m
  | .view _ => none

/-- The membership in an entry. -/
def Entry.view? : Entry ι μ → Option (View ι)
  | .message _ _ _ => none
  | .view v => some v

/-- A process that is or was a member. -/
structure Proc (σ μ : Type*) where
  /-- Its state. -/
  node : σ
  /-- The position of the first entry it delivers: its own joining. -/
  joined : ℕ
  /-- The position of the next entry it delivers. -/
  position : ℕ
  /-- What it has sent and what has not been ordered yet, with stamps. -/
  outbox : List (ℕ × μ)

/-- A group in operation. -/
structure State (ι σ μ : Type*) where
  log : List (Entry ι μ)
  /-- The current members. -/
  members : List ι
  /-- The processes that have joined so far. -/
  proc : ι → Option (Proc σ μ)

/-- What can happen next. -/
inductive Event (ι κ : Type*) where
  /-- A local action at a member. -/
  | act (i : ι) (k : κ)
  /-- A process joins for the first time. -/
  | join (i : ι)
  /-- A member leaves. -/
  | leave (i : ι)
  /-- A member is disconnected. -/
  | disconnect (i : ι)
  /-- The next message of a member is ordered. -/
  | order (i : ι)
  /-- A member delivers its next entry. -/
  | deliver (i : ι)
deriving DecidableEq, Repr

/-- Messages sent at one position. -/
def stamped (w : ℕ) (ms : List μ) : List (ℕ × μ) := ms.map fun m ↦ (w, m)

@[simp] theorem stamped_nil (w : ℕ) : stamped w ([] : List μ) = [] := rfl

theorem mem_stamped {v w : ℕ} {m : μ} {ms : List μ} :
    (v, m) ∈ stamped w ms ↔ v = w ∧ m ∈ ms := by
  rw [stamped, List.mem_map]
  constructor
  · rintro ⟨m', hm, heq⟩
    obtain ⟨rfl, rfl⟩ := Prod.mk.inj heq
    exact ⟨rfl, hm⟩
  · rintro ⟨rfl, hm⟩
    exact ⟨m, hm, rfl⟩

/-- The last entry, or an earlier one. -/
theorem getElem?_concat_eq_some {α : Type*} {l : List α} {x y : α} {u : ℕ} :
    (l ++ [x])[u]? = some y ↔ l[u]? = some y ∨ u = l.length ∧ x = y := by
  rcases Nat.lt_trichotomy u l.length with hlt | rfl | hgt
  · simp [List.getElem?_append_left hlt, Nat.ne_of_lt hlt]
  · simp
  · have hlen : (l ++ [x]).length ≤ u := by
      rw [List.length_append, List.length_singleton]
      exact hgt
    rw [List.getElem?_eq_none hlen, List.getElem?_eq_none (Nat.le_of_lt hgt)]
    simp [Nat.ne_of_gt hgt]

/-- A process at the point of joining. -/
def Proc.start (node : σ) (position : ℕ) : Proc σ μ := ⟨node, position, position, []⟩

/-- A process takes on its new state and sends. -/
def Proc.advance (p : Proc σ μ) (next : σ × List μ) : Proc σ μ :=
  { p with node := next.1, outbox := p.outbox ++ stamped p.position next.2 }

/-- The reaction to an entry. -/
def react (A : Automaton ι σ μ κ) (n : σ) : Entry ι μ → σ × List μ
  | .message _ _ m => A.receive n m
  | .view v => A.view n v

/-- The part of the log that a process has reached. -/
def State.past (s : State ι σ μ) (p : Proc σ μ) : List (Entry ι μ) := s.log.take p.position

/-- The entries that a process has delivered. -/
def State.delivered (s : State ι σ μ) (p : Proc σ μ) : List (Entry ι μ) := (s.past p).drop p.joined

/-- A group with some members that has not communicated yet. -/
def start [DecidableEq ι] (members : List ι) (fresh : ι → σ) : State ι σ μ where
  log := []
  members := members
  proc i := if i ∈ members then some (.start (fresh i) 0) else none

namespace State

variable [DecidableEq ι] (s : State ι σ μ)

/-- Everything a process has sent, in order: what has been ordered, and its outbox. -/
def sentBy (i : ι) : List (ℕ × μ) :=
  s.log.filterMap (Entry.of i) ++ ((s.proc i).map Proc.outbox).getD []

/-- The state of a member. -/
def member? (i : ι) : Option (Proc σ μ) := if i ∈ s.members then s.proc i else none

def setProc (i : ι) (p : Proc σ μ) : State ι σ μ :=
  { s with proc := Function.update s.proc i (some p) }

/-- A process joins. -/
def joined (i : ι) (node : σ) : State ι σ μ where
  log := s.log ++ [.view ⟨.join, i, s.members ++ [i]⟩]
  members := s.members ++ [i]
  proc := Function.update s.proc i (some (.start node s.log.length))

/-- A member goes. -/
def departed (cause : Cause) (i : ι) : State ι σ μ :=
  { s with
    log := s.log ++ [.view ⟨cause, i, s.members.erase i⟩]
    members := s.members.erase i }

/-- The first message in the outbox of a member is ordered. -/
def ordered (i : ι) (p : Proc σ μ) : Option (State ι σ μ) :=
  match p.outbox with
  | [] => none
  | (w, m) :: rest =>
      some { s.setProc i { p with outbox := rest } with log := s.log ++ [.message i w m] }

end State

variable [DecidableEq ι]

/-- A group of automata over totally ordered multicast; `fresh i` is the state of a process
that joins. -/
def machine (A : Automaton ι σ μ κ) (fresh : ι → σ) : Machine (State ι σ μ) (Event ι κ) where
  step s
    | .act i k => (s.member? i).map fun p ↦ s.setProc i (p.advance (A.act p.node k))
    | .join i => if (s.proc i).isNone then some (s.joined i (fresh i)) else none
    | .leave i => if i ∈ s.members then some (s.departed .leave i) else none
    | .disconnect i => if i ∈ s.members then some (s.departed .disconnect i) else none
    | .order i => (s.member? i).bind (s.ordered i)
    | .deliver i => (s.member? i).bind fun p ↦ s.log[p.position]?.map fun e ↦
        s.setProc i { p.advance (react A p.node e) with position := p.position + 1 }

variable {A : Automaton ι σ μ κ} {fresh : ι → σ} {s s' : State ι σ μ} {e : Event ι κ}
variable {es : List (Event ι κ)} {i j : ι} {k : κ} {p p' : Proc σ μ} {w u : ℕ} {m : μ}

theorem member?_eq_some : s.member? i = some p ↔ i ∈ s.members ∧ s.proc i = some p := by
  rw [State.member?]
  split <;> simp [*]

theorem proc_of_member? (h : s.member? i = some p) : s.proc i = some p := (member?_eq_some.mp h).2

/-- **What an event can do.** -/
theorem step_cases (h : (machine A fresh).step s e = some s') :
    (∃ i k p, e = .act i k ∧ i ∈ s.members ∧ s.proc i = some p ∧
      s' = s.setProc i (p.advance (A.act p.node k))) ∨
    (∃ i, e = .join i ∧ s.proc i = none ∧ s' = s.joined i (fresh i)) ∨
    (∃ cause i, (e = .leave i ∨ e = .disconnect i) ∧ s' = s.departed cause i) ∨
    (∃ i p w m rest, e = .order i ∧ s.proc i = some p ∧ p.outbox = (w, m) :: rest ∧
      s' = { s.setProc i { p with outbox := rest } with log := s.log ++ [.message i w m] }) ∨
    (∃ i p x, e = .deliver i ∧ i ∈ s.members ∧ s.proc i = some p ∧
      s.log[p.position]? = some x ∧
      s' = s.setProc i { p.advance (react A p.node x) with position := p.position + 1 }) := by
  cases e with
  | act i k =>
      obtain ⟨p, hp, rfl⟩ := Option.map_eq_some_iff.mp h
      obtain ⟨hi, hp⟩ := member?_eq_some.mp hp
      exact .inl ⟨i, k, p, rfl, hi, hp, rfl⟩
  | join i =>
      simp only [machine, Option.isNone_iff_eq_none] at h
      split at h
      · exact .inr (.inl ⟨i, rfl, ‹_›, (Option.some.inj h).symm⟩)
      · cases h
  | leave i =>
      simp only [machine] at h
      split at h
      · exact .inr (.inr (.inl ⟨.leave, i, .inl rfl, (Option.some.inj h).symm⟩))
      · cases h
  | disconnect i =>
      simp only [machine] at h
      split at h
      · exact .inr (.inr (.inl ⟨.disconnect, i, .inr rfl, (Option.some.inj h).symm⟩))
      · cases h
  | order i =>
      obtain ⟨p, hp, h⟩ := Option.bind_eq_some_iff.mp h
      obtain ⟨-, hp⟩ := member?_eq_some.mp hp
      cases ho : p.outbox with
      | nil => simp [State.ordered, ho] at h
      | cons x rest =>
          simp only [State.ordered, ho, Option.some.injEq] at h
          exact .inr (.inr (.inr (.inl ⟨i, p, x.1, x.2, rest, rfl, hp, ho, h.symm⟩)))
  | deliver i =>
      obtain ⟨p, hp, h⟩ := Option.bind_eq_some_iff.mp h
      obtain ⟨hi, hp⟩ := member?_eq_some.mp hp
      obtain ⟨x, hx, rfl⟩ := Option.map_eq_some_iff.mp h
      exact .inr (.inr (.inr (.inr ⟨i, p, x, rfl, hi, hp, hx, rfl⟩)))

/-- A member that leaves is reported as such. -/
theorem eq_departed_of_leave (h : (machine A fresh).step s (.leave i) = some s') :
    s' = s.departed .leave i := by
  simp only [machine] at h
  split at h
  · exact (Option.some.inj h).symm
  · cases h

theorem step_act (hp : s.member? i = some p) : (machine A fresh).step s (.act i k) =
    some (s.setProc i (p.advance (A.act p.node k))) := by
  simp [machine, hp]

theorem step_join (hi : s.proc i = none) : (machine A fresh).step s (.join i) =
    some (s.joined i (fresh i)) := by
  simp [machine, hi]

theorem step_order {rest : List (ℕ × μ)} (hp : s.member? i = some p)
    (ho : p.outbox = (w, m) :: rest) : (machine A fresh).step s (.order i) =
      some { s.setProc i { p with outbox := rest } with log := s.log ++ [.message i w m] } := by
  simp [machine, hp, State.ordered, ho]

theorem step_deliver {x : Entry ι μ} (hp : s.member? i = some p)
    (hx : s.log[p.position]? = some x) : (machine A fresh).step s (.deliver i) =
      some (s.setProc i { p.advance (react A p.node x) with position := p.position + 1 }) := by
  simp [machine, hp, hx]

/-! ## Positions and stamps -/

@[simp] theorem setProc_log : (s.setProc i p).log = s.log := rfl
@[simp] theorem setProc_members : (s.setProc i p).members = s.members := rfl
@[simp] theorem setProc_proc_self : (s.setProc i p).proc i = some p := by simp [State.setProc]
@[simp] theorem setProc_proc_of_ne (h : j ≠ i) : (s.setProc i p).proc j = s.proc j := by
  simp [State.setProc, h]

/-- The bounds on positions and stamps. -/
structure WellFormed (s : State ι σ μ) : Prop where
  position_le : ∀ {i p}, s.proc i = some p → p.joined ≤ p.position ∧ p.position ≤ s.log.length
  outbox_le : ∀ {i p w m}, s.proc i = some p → (w, m) ∈ p.outbox → p.joined ≤ w ∧ w ≤ p.position
  /-- A message is ordered after the entries its sender had delivered. -/
  stamp_le : ∀ {u i w m}, s.log[u]? = some (.message i w m) →
    w ≤ u ∧ ∃ p, s.proc i = some p ∧ p.joined ≤ w ∧ w ≤ p.position

namespace WellFormed

omit [DecidableEq ι] in
theorem length_past (h : WellFormed s) (hp : s.proc i = some p) :
    (s.past p).length = p.position := by
  rw [State.past, List.length_take, Nat.min_eq_left (h.position_le hp).2]

omit [DecidableEq ι] in
theorem joined_le_length_past (h : WellFormed s) (hp : s.proc i = some p) :
    p.joined ≤ (s.past p).length := by
  rw [h.length_past hp]
  exact (h.position_le hp).1

/-- A process moves on. -/
theorem setProc (h : WellFormed s) (hp : s.proc i = some p) (hj : p'.joined = p.joined)
    (hle : p.position ≤ p'.position) (hlen : p'.position ≤ s.log.length)
    (hout : ∀ w m, (w, m) ∈ p'.outbox → p.joined ≤ w ∧ w ≤ p'.position) :
    WellFormed (s.setProc i p') := by
  have hjoined := (h.position_le hp).1
  refine ⟨fun {j q} hq ↦ ?_, fun {j q w m} hq hm ↦ ?_, fun {u j w m} hu ↦ ?_⟩
  · by_cases hji : j = i
    · subst hji
      obtain rfl : p' = q := by simpa using hq
      exact ⟨by omega, hlen⟩
    · rw [setProc_proc_of_ne hji] at hq
      exact h.position_le hq
  · by_cases hji : j = i
    · subst hji
      obtain rfl : p' = q := by simpa using hq
      rw [hj]
      exact hout w m hm
    · rw [setProc_proc_of_ne hji] at hq
      exact h.outbox_le hq hm
  · obtain ⟨hwu, q, hq, hqw, hwq⟩ := h.stamp_le hu
    refine ⟨hwu, ?_⟩
    by_cases hji : j = i
    · subst hji
      obtain rfl : p = q := Option.some.inj (hp.symm.trans hq)
      exact ⟨p', by simp, by omega, by omega⟩
    · exact ⟨q, by rwa [setProc_proc_of_ne hji], hqw, hwq⟩

/-- A process moves on and sends. -/
theorem advance (h : WellFormed s) (hp : s.proc i = some p) (next : σ × List μ) {position : ℕ}
    (hle : p.position ≤ position) (hlen : position ≤ s.log.length) :
    WellFormed (s.setProc i { p.advance next with position := position }) := by
  refine h.setProc hp rfl hle hlen fun w m hm ↦ ?_
  rcases List.mem_append.mp hm with hm | hm
  · exact (h.outbox_le hp hm).imp id fun hw ↦ Nat.le_trans hw hle
  · obtain ⟨rfl, -⟩ := mem_stamped.mp hm
    exact ⟨(h.position_le hp).1, hle⟩

omit [DecidableEq ι] in
/-- The log grows. -/
theorem append (h : WellFormed s) {x : Entry ι μ} (members : List ι)
    (hx : ∀ i w m, x = .message i w m →
      w ≤ s.log.length ∧ ∃ p, s.proc i = some p ∧ p.joined ≤ w ∧ w ≤ p.position) :
    WellFormed { s with log := s.log ++ [x], members := members } := by
  refine ⟨fun {j q} hq ↦ ?_, fun hq hm ↦ h.outbox_le hq hm, fun {u j w m} hu ↦ ?_⟩
  · obtain ⟨h₁, h₂⟩ := h.position_le hq
    exact ⟨h₁, by simp only [List.length_append, List.length_singleton]; omega⟩
  · rcases getElem?_concat_eq_some.mp hu with hu | ⟨rfl, hmessage⟩
    · exact h.stamp_le hu
    · exact hx j w m hmessage

/-- A process that has not joined has sent nothing. -/
theorem sentBy_of_none (h : WellFormed s) (hi : s.proc i = none) :
    s.log.filterMap (Entry.of i) = [] := by
  rw [List.filterMap_eq_nil_iff]
  intro x hx
  cases x with
  | message j w m =>
      obtain ⟨u, hu⟩ := List.getElem?_of_mem hx
      obtain ⟨-, q, hq, -⟩ := h.stamp_le hu
      have hji : j ≠ i := by
        rintro rfl
        simp [hi] at hq
      simp [Entry.of, hji]
  | view v => rfl

/-- A process joins. -/
theorem joined (h : WellFormed s) (hi : s.proc i = none) (node : σ) :
    WellFormed (s.joined i node) := by
  have happend := h.append (x := .view ⟨.join, i, s.members ++ [i]⟩) (s.members ++ [i]) (by simp)
  refine ⟨fun {j q} hq ↦ ?_, fun {j q w m} hq hm ↦ ?_, fun {u j w m} hu ↦ ?_⟩
  · by_cases hji : j = i
    · subst hji
      obtain rfl : Proc.start node s.log.length = q := by simpa [State.joined] using hq
      simp [Proc.start, State.joined]
    · exact happend.position_le (i := j) (by simpa [State.joined, hji] using hq)
  · by_cases hji : j = i
    · subst hji
      obtain rfl : Proc.start node s.log.length = q := by simpa [State.joined] using hq
      simp [Proc.start] at hm
    · exact happend.outbox_le (i := j) (by simpa [State.joined, hji] using hq) hm
  · obtain ⟨hwu, q, hq, hqw⟩ := happend.stamp_le hu
    refine ⟨hwu, q, ?_, hqw⟩
    have hji : j ≠ i := by
      rintro rfl
      simp [hi] at hq
    simpa [State.joined, hji] using hq

end WellFormed

/-! ## What a process has sent and seen -/

theorem sentBy_of_some (hp : s.proc i = some p) :
    s.sentBy i = s.log.filterMap (Entry.of i) ++ p.outbox := by
  simp [State.sentBy, hp]

theorem sentBy_setProc_of_ne (h : j ≠ i) : (s.setProc i p).sentBy j = s.sentBy j := by
  simp [State.sentBy, h]

/-- What a process sends is added to its stream. -/
theorem sentBy_advance (hp : s.proc i = some p) (next : σ × List μ) (position : ℕ) :
    (s.setProc i { p.advance next with position := position }).sentBy i =
      s.sentBy i ++ stamped p.position next.2 := by
  rw [sentBy_of_some (setProc_proc_self), sentBy_of_some hp]
  simp [Proc.advance]

/-- Ordering a message leaves all streams as they are. -/
theorem sentBy_ordered (hp : s.proc i = some p) {rest : List (ℕ × μ)}
    (ho : p.outbox = (w, m) :: rest) (j : ι) :
    State.sentBy { s.setProc i { p with outbox := rest } with log := s.log ++ [.message i w m] } j =
      s.sentBy j := by
  by_cases hji : j = i
  · subst hji
    simp [State.sentBy, State.setProc, hp, ho, Entry.of]
  · simp [State.sentBy, State.setProc, hji, Entry.of, Ne.symm hji]

theorem sentBy_append_view (v : View ι) (members : List ι) (j : ι) :
    State.sentBy { s with log := s.log ++ [.view v], members := members } j = s.sentBy j := by
  simp [State.sentBy, Entry.of]

theorem sentBy_joined_self (h : WellFormed s) (hi : s.proc i = none) (node : σ) :
    (s.joined i node).sentBy i = [] := by
  simp [State.sentBy, State.joined, Entry.of, h.sentBy_of_none hi, Proc.start]

theorem sentBy_joined_of_ne (hji : j ≠ i) (node : σ) :
    (s.joined i node).sentBy j = s.sentBy j := by
  simp [State.sentBy, State.joined, Entry.of, hji]

/-- What has been ordered of a stream is in the log. -/
theorem mem_filterMap_of {log : List (Entry ι μ)} :
    (w, m) ∈ log.filterMap (Entry.of i) ↔ ∃ u : ℕ, log[u]? = some (.message i w m) := by
  rw [List.mem_filterMap]
  constructor
  · rintro ⟨x, hx, hof⟩
    obtain ⟨u, hu⟩ := List.getElem?_of_mem hx
    cases x with
    | message j w' m' =>
        by_cases hji : j = i
        · obtain ⟨rfl, rfl⟩ : w' = w ∧ m' = m := by simpa [Entry.of, hji] using hof
          exact ⟨u, hji ▸ hu⟩
        · simp [Entry.of, hji] at hof
    | view v => cases hof
  · rintro ⟨u, hu⟩
    exact ⟨_, List.mem_of_getElem? hu, by simp [Entry.of]⟩

/-- A message in the log is in its sender's stream. -/
theorem mem_sentBy_of_getElem? (h : s.log[u]? = some (.message i w m)) : (w, m) ∈ s.sentBy i :=
  List.mem_append_left _ (mem_filterMap_of.mpr ⟨u, h⟩)

/-- Messages of one sender are ordered as they were sent. -/
theorem rel_of_pairwise_sentBy {R : ℕ × μ → ℕ × μ → Prop} (h : (s.sentBy i).Pairwise R)
    {u u' w' : ℕ} {m' : μ} (hlt : u < u') (hu : s.log[u]? = some (.message i w m))
    (hu' : s.log[u']? = some (.message i w' m')) : R (w, m) (w', m') := by
  have hlog := List.pairwise_filterMap.mp (List.pairwise_append.mp h).1
  obtain ⟨hlen, hu⟩ := List.getElem?_eq_some_iff.mp hu
  obtain ⟨hlen', hu'⟩ := List.getElem?_eq_some_iff.mp hu'
  exact List.pairwise_iff_getElem.mp hlog u u' hlen hlen' hlt (w, m) (by simp [hu, Entry.of])
    (w', m') (by simp [hu', Entry.of])

/-- The stamps in a stream lie between the sender's joining and its position. -/
theorem WellFormed.stamp_le_of_mem_sentBy (h : WellFormed s) (hp : s.proc i = some p)
    (hm : (w, m) ∈ s.sentBy i) : p.joined ≤ w ∧ w ≤ p.position := by
  rw [sentBy_of_some hp, List.mem_append] at hm
  rcases hm with hm | hm
  · obtain ⟨u, hu⟩ := mem_filterMap_of.mp hm
    obtain ⟨-, q, hq, hle⟩ := h.stamp_le hu
    obtain rfl : p = q := Option.some.inj (hp.symm.trans hq)
    exact hle
  · exact h.outbox_le hp hm

omit [DecidableEq ι] in
/-- What a process has reached does not change when the log grows. -/
theorem past_append (h : p.position ≤ s.log.length) (x : Entry ι μ) (members : List ι)
    (proc : ι → Option (Proc σ μ)) :
    State.past { log := s.log ++ [x], members := members, proc := proc } p = s.past p :=
  List.take_append_of_le_length h

omit [DecidableEq ι] in
/-- A delivery adds the next entry. -/
theorem past_succ {x : Entry ι μ} (h : s.log[p.position]? = some x) :
    s.log.take (p.position + 1) = s.past p ++ [x] := by
  rw [State.past, List.take_add_one, h]
  rfl

/-- A delivery, as seen by the process. -/
theorem exists_step_deliver {x : Entry ι μ} (h : WellFormed s) (hp : s.member? i = some p)
    (hx : s.log[p.position]? = some x) : ∃ s' p', (machine A fresh).step s (.deliver i) = some s' ∧
      s'.proc i = some p' ∧ p'.node = (react A p.node x).1 ∧
      s'.delivered p' = s.delivered p ++ [x] := by
  have hproc := proc_of_member? hp
  refine ⟨_, _, step_deliver hp hx, setProc_proc_self, rfl, ?_⟩
  show (s.log.take (p.position + 1)).drop p.joined = _
  rw [past_succ hx, List.drop_append_of_le_length (h.joined_le_length_past hproc), State.delivered]

/-! ## The rule for runs -/

section

variable {I : ι → ℕ → List (Entry ι μ) → σ → List (ℕ × μ) → Prop}
variable {C : State ι σ μ → Event ι κ → Prop}

/-- A relation between where a process has joined, the log as far as it has reached, its
state and what it has sent, holds of every process. -/
def Holds (I : ι → ℕ → List (Entry ι μ) → σ → List (ℕ × μ) → Prop) (s : State ι σ μ) : Prop :=
  ∀ i p, s.proc i = some p → I i p.joined (s.past p) p.node (s.sentBy i)

/-- A process moves on and sends; the others are as they were. -/
theorem Holds.advance (h : Holds I s) (hp : s.proc i = some p) (next : σ × List μ) (position : ℕ)
    (hI : I i p.joined (s.log.take position) next.1
      (s.sentBy i ++ stamped p.position next.2)) :
    Holds I (s.setProc i { p.advance next with position := position }) := by
  intro j q hq
  by_cases hji : j = i
  · subst hji
    obtain rfl : { p.advance next with position := position } = q := by simpa using hq
    rw [sentBy_advance hp]
    exact hI
  · rw [setProc_proc_of_ne hji] at hq
    rw [sentBy_setProc_of_ne hji]
    exact h j q hq

/-- What local actions and deliveries preserve at a process is preserved by every step.  In
either case the invariants of all processes may be used. -/
theorem holds_step (hfresh : ∀ i pre, I i pre.length pre (fresh i) [])
    (hact : ∀ s i k p, C s (.act i k) → WellFormed s → Holds I s → s.member? i = some p →
      I i p.joined (s.past p) (A.act p.node k).1
        (s.sentBy i ++ stamped p.position (A.act p.node k).2))
    (hreact : ∀ s i p x, C s (.deliver i) → WellFormed s → Holds I s → s.member? i = some p →
      s.log[p.position]? = some x →
      I i p.joined (s.past p ++ [x]) (react A p.node x).1
        (s.sentBy i ++ stamped p.position (react A p.node x).2))
    (h : WellFormed s ∧ Holds I s) (hc : C s e) (hs : (machine A fresh).step s e = some s') :
    WellFormed s' ∧ Holds I s' := by
  obtain ⟨hwf, hI⟩ := h
  rcases step_cases hs with ⟨i, k, p, rfl, hi, hp, rfl⟩ | ⟨i, rfl, hi, rfl⟩ |
    ⟨cause, i, -, rfl⟩ | ⟨i, p, w, m, rest, rfl, hp, ho, rfl⟩ | ⟨i, p, x, rfl, hi, hp, hx, rfl⟩
  · -- a local action
    exact ⟨hwf.advance hp _ (Nat.le_refl _) (hwf.position_le hp).2,
      hI.advance hp _ p.position (hact s i k p hc hwf hI (member?_eq_some.mpr ⟨hi, hp⟩))⟩
  · -- a process joins
    refine ⟨hwf.joined hi _, fun j q hq ↦ ?_⟩
    by_cases hji : j = i
    · subst hji
      obtain rfl : Proc.start (fresh j) s.log.length = q := by simpa [State.joined] using hq
      rw [sentBy_joined_self hwf hi, State.joined, past_append (Nat.le_refl _)]
      simpa [Proc.start, State.past] using hfresh j s.log
    · have hq : s.proc j = some q := by simpa [State.joined, hji] using hq
      rw [sentBy_joined_of_ne hji, State.joined, past_append (hwf.position_le hq).2]
      exact hI j q hq
  · -- a member goes
    refine ⟨hwf.append _ (by simp), fun j q hq ↦ ?_⟩
    rw [State.departed, sentBy_append_view, past_append (hwf.position_le hq).2]
    exact hI j q hq
  · -- a message is ordered
    obtain ⟨hjoined, hlen⟩ := hwf.position_le hp
    have hset : WellFormed (s.setProc i { p with outbox := rest }) :=
      hwf.setProc hp rfl (Nat.le_refl _) hlen fun w m hm ↦
        hwf.outbox_le hp (by rw [ho]; exact List.mem_cons_of_mem _ hm)
    refine ⟨hset.append _ fun j w' m' hm ↦ ?_, fun j q hq ↦ ?_⟩
    · cases hm
      obtain ⟨h₁, h₂⟩ := hwf.outbox_le hp (w := w) (m := m) (by rw [ho]; exact List.mem_cons_self)
      exact ⟨Nat.le_trans h₂ hlen, _, setProc_proc_self, h₁, h₂⟩
    · rw [sentBy_ordered hp ho]
      by_cases hji : j = i
      · subst hji
        obtain rfl : { p with outbox := rest } = q := by simpa using hq
        exact (past_append (p := { p with outbox := rest }) hlen _ _ _).symm ▸ hI j p hp
      · rw [setProc_proc_of_ne hji] at hq
        exact (past_append (hwf.position_le hq).2 _ _ _).symm ▸ hI j q hq
  · -- a process delivers an entry
    have hlt : p.position < s.log.length := (List.getElem?_eq_some_iff.mp hx).1
    refine ⟨hwf.advance hp _ (Nat.le_succ _) hlt, hI.advance hp _ (p.position + 1) ?_⟩
    rw [past_succ hx]
    exact hreact s i p x hc hwf hI (member?_eq_some.mpr ⟨hi, hp⟩) hx

theorem holds_start (hfresh : ∀ i pre, I i pre.length pre (fresh i) []) (members : List ι) :
    WellFormed (start members fresh : State ι σ μ) ∧
      Holds I (start members fresh : State ι σ μ) := by
  have hproc : ∀ {i p}, (start members fresh : State ι σ μ).proc i = some p →
      p = .start (fresh i) 0 := by
    intro i p hp
    simp only [start] at hp
    split at hp
    · exact (Option.some.inj hp).symm
    · cases hp
  refine ⟨⟨fun hp ↦ ?_, fun hp hm ↦ ?_, fun hu ↦ by simp [start] at hu⟩, fun i p hp ↦ ?_⟩
  · rw [hproc hp]
    exact ⟨Nat.le_refl _, Nat.zero_le _⟩
  · rw [hproc hp] at hm
    cases hm
  · rw [sentBy_of_some hp, hproc hp]
    exact hfresh i []

end

/-! ## How processes have joined -/

/-- The founders are there from the start, and every other process has found its joining in
the log. -/
structure Joined (founders : List ι) (s : State ι σ μ) : Prop where
  isSome : ∀ i ∈ founders, (s.proc i).isSome
  founder : ∀ {i p}, s.proc i = some p → i ∈ founders → p.joined = 0
  joiner : ∀ {i p}, s.proc i = some p → i ∉ founders →
    ∃ members, s.log[p.joined]? = some (.view ⟨.join, i, members⟩)

namespace Joined

variable {founders : List ι}

/-- A process changes, but not where it has joined. -/
theorem setProc (h : Joined founders s) (hp : s.proc i = some p) (hj : p'.joined = p.joined) :
    Joined founders (s.setProc i p') := by
  refine ⟨fun j hj' ↦ ?_, fun {j q} hq hf ↦ ?_, fun {j q} hq hf ↦ ?_⟩
  · by_cases hji : j = i
    · subst hji
      simp
    · rw [setProc_proc_of_ne hji]
      exact h.isSome j hj'
  · by_cases hji : j = i
    · subst hji
      obtain rfl : p' = q := by simpa using hq
      rw [hj]
      exact h.founder hp hf
    · rw [setProc_proc_of_ne hji] at hq
      exact h.founder hq hf
  · by_cases hji : j = i
    · subst hji
      obtain rfl : p' = q := by simpa using hq
      rw [hj]
      exact h.joiner hp hf
    · rw [setProc_proc_of_ne hji] at hq
      exact h.joiner hq hf

omit [DecidableEq ι] in
/-- The log grows. -/
theorem append (h : Joined founders s) (x : Entry ι μ) (members : List ι) :
    Joined founders { s with log := s.log ++ [x], members := members } := by
  refine ⟨h.isSome, h.founder, fun hq hf ↦ ?_⟩
  obtain ⟨ms, hms⟩ := h.joiner hq hf
  refine ⟨ms, ?_⟩
  rw [← hms]
  exact List.getElem?_append_left (List.getElem?_eq_some_iff.mp hms).1

theorem step (h : Joined founders s) (hs : (machine A fresh).step s e = some s') :
    Joined founders s' := by
  rcases step_cases hs with ⟨i, k, p, rfl, -, hp, rfl⟩ | ⟨i, rfl, hi, rfl⟩ |
    ⟨cause, i, -, rfl⟩ | ⟨i, p, w, m, rest, rfl, hp, ho, rfl⟩ | ⟨i, p, x, rfl, -, hp, hx, rfl⟩
  · exact h.setProc hp rfl
  · have happend := h.append (.view ⟨.join, i, s.members ++ [i]⟩) (s.members ++ [i])
    refine ⟨fun j hj ↦ ?_, fun {j q} hq hf ↦ ?_, fun {j q} hq hf ↦ ?_⟩
    · by_cases hji : j = i
      · subst hji
        simp [State.joined]
      · simpa [State.joined, hji] using h.isSome j hj
    · have hji : j ≠ i := by
        rintro rfl
        simpa [hi] using h.isSome j hf
      exact happend.founder (i := j) (by simpa [State.joined, hji] using hq) hf
    · by_cases hji : j = i
      · subst hji
        obtain rfl : Proc.start (fresh j) s.log.length = q := by simpa [State.joined] using hq
        exact ⟨s.members ++ [j], by simp [State.joined, Proc.start]⟩
      · exact happend.joiner (i := j) (by simpa [State.joined, hji] using hq) hf
  · exact h.append _ _
  · have hset : Joined founders (s.setProc i { p with outbox := rest }) := h.setProc hp rfl
    exact hset.append _ _
  · exact h.setProc hp rfl

theorem start (founders : List ι) (fresh : ι → σ) :
    Joined founders (TotalOrder.start founders fresh : State ι σ μ) := by
  refine ⟨fun i hi ↦ by simp [TotalOrder.start, hi], fun {i p} hp hi ↦ ?_, fun {i p} hp hi ↦ ?_⟩
  · obtain rfl : Proc.start (fresh i) 0 = p := by simpa [TotalOrder.start, hi] using hp
    rfl
  · simp [TotalOrder.start, hi] at hp

end Joined

end Distributed.TotalOrder
