import ReplicatedBank.Distributed.Machine
import ReplicatedBank.Process

/-!
# The start-up barrier

`connect` parks the main thread until enough members are there; the listener wakes it up.
The two threads take turns at any point between the blocks that are synchronized on the
group.  The listener's write of `replicas` is not in such a block, and of the branches of
`membershipMessageReceived` only the one for joins notifies.

A listener that is left alone through a message does what the handler of
`ReplicatedBank.Listener` does in one go (`run_handling`).
-/

namespace ReplicatedBank

open Distributed

namespace Barrier

/-- The main thread in `connect`, after `joinGroup`. -/
inductive Main where
  /-- Before the synchronized block. -/
  | connecting
  /-- In `group.wait()`, and not notified. -/
  | waiting
  /-- In `group.wait()`, notified. -/
  | notified
  /-- After the block. -/
  | released
deriving DecidableEq, Repr

/-- The listener in `membershipMessageReceived`. -/
inductive Listener where
  | idle
  /-- Before the write of `replicas`. -/
  | write (info : MembershipInfo)
  /-- Before the synchronized block. -/
  | notify (info : MembershipInfo)
  /-- After that block. -/
  | answer (info : MembershipInfo)
deriving DecidableEq

/-- A process that is starting up. -/
structure State where
  machine : ReplicatedStateMachine
  main : Main
  listener : Listener
  /-- History: the last membership that the listener was handed. -/
  last : Option MembershipInfo
deriving DecidableEq

/-- What can happen next. -/
inductive Event where
  /-- The main thread enters the synchronized block, and leaves it or waits. -/
  | check
  /-- It returns from `group.wait()`: notified, or of its own accord. -/
  | wake
  /-- The listener is handed a transaction. -/
  | message (t : Transaction)
  /-- The listener is handed a membership. -/
  | membership (info : MembershipInfo)
  /-- The listener goes on with the membership. -/
  | proceed

/-- The listener goes on. -/
def proceed (s : State) : Option State :=
  match s.listener with
  | .idle => none
  | .write info => some { s with
      machine := { s.machine with replicas := info.members }
      listener := if info.isCausedByJoin then .notify info else .idle }
  | .notify info => some { s with
      main := if s.machine.numberOfReplicas ≤ s.machine.replicas.length ∧ s.main = .waiting
        then .notified else s.main
      listener := .answer info }
  | .answer info => some { s with
      machine := if some s.machine.privateGroup ≠ info.joined
        then (AdvancedListener.welcome s.machine).1 else s.machine
      listener := .idle }

/-- The two threads. -/
def machine : Machine State Event where
  step s
    | .check =>
        if s.main = .connecting then some { s with
          main := if s.machine.replicas.length < s.machine.numberOfReplicas
            then .waiting else .released }
        else none
    | .wake =>
        if s.main = .waiting ∨ s.main = .notified then some { s with main := .released } else none
    | .message t =>
        if s.listener = .idle then some { s with
          machine := AdvancedListener.regularMessageReceived s.machine t }
        else none
    | .membership info =>
        if s.listener = .idle then some { s with
          machine := s.machine.write [AdvancedListener.print [.text "Membership message received"]]
          listener := if info.isCausedByJoin ∨ info.isCausedByLeave ∨ info.isCausedByDisconnect
            then .write info else .idle
          last := some info }
        else none
    | .proceed => proceed s

/-- A process that has joined the group. -/
def start (m : ReplicatedStateMachine) : State := ⟨m, .connecting, .idle, none⟩

/-- The last membership lists as many members as the process waits for. -/
def Complete (s : State) : Prop :=
  ∃ info ∈ s.last, s.machine.numberOfReplicas ≤ info.members.length

/-- A main thread is not left behind: between messages, it does not wait for a group that is
complete. -/
def Released (s : State) : Prop := s.listener = .idle → Complete s → s.main ≠ .waiting

/-- A step at which nothing but a join makes the group complete while the main thread waits,
and at which the main thread does not start to wait when something other than a join has
done so already. -/
def ByJoin (s : State) : Event → Prop
  | .check => ∀ info ∈ s.last, s.machine.numberOfReplicas ≤ info.members.length →
      info.isCausedByJoin ∨ s.machine.numberOfReplicas ≤ s.machine.replicas.length
  | .membership info => s.main = .waiting → s.machine.numberOfReplicas ≤ info.members.length →
      info.isCausedByJoin
  | .wake | .message _ | .proceed => True

instance : DecidablePred Complete := fun s ↦
  inferInstanceAs (Decidable (∃ info ∈ s.last, _))

instance : DecidablePred Released := fun s ↦
  inferInstanceAs (Decidable (s.listener = .idle → Complete s → s.main ≠ .waiting))

instance (s : State) : DecidablePred (ByJoin s)
  | .check => inferInstanceAs (Decidable (∀ info ∈ s.last,
      s.machine.numberOfReplicas ≤ info.members.length →
        info.isCausedByJoin ∨ s.machine.numberOfReplicas ≤ s.machine.replicas.length))
  | .membership info => inferInstanceAs (Decidable (s.main = .waiting →
      s.machine.numberOfReplicas ≤ info.members.length → info.isCausedByJoin))
  | .wake | .message _ | .proceed => instDecidableTrue

/-! ## A message in one go -/

/-- The steps of the listener for one membership. -/
def handling (info : MembershipInfo) : List Event :=
  .membership info :: List.replicate
    (if info.isCausedByJoin then 3
      else if info.isCausedByLeave ∨ info.isCausedByDisconnect then 1 else 0) .proceed

variable {s s' : State} {e : Event} {info : MembershipInfo}

/-- Without another thread in between, the listener does what its handler does. -/
theorem run_handling (hs : s.listener = .idle) : ∃ s', machine.run s (handling info) = some s' ∧
    s'.machine = (AdvancedListener.membershipMessageReceived s.machine info).1 ∧
    s'.listener = .idle := by
  simp only [handling, AdvancedListener.membershipMessageReceived]
  by_cases hjoin : info.isCausedByJoin
  · by_cases hself : some s.machine.privateGroup ≠ info.joined
    all_goals
      simp [Machine.run, machine, proceed, hs, hjoin, hself, ReplicatedStateMachine.write]
  · by_cases hgone : info.isCausedByLeave ∨ info.isCausedByDisconnect
    · have hgone' : (info.isCausedByLeave || info.isCausedByDisconnect) = true := by
        simpa using hgone
      simp [Machine.run, machine, proceed, hs, hjoin, hgone, hgone', ReplicatedStateMachine.write]
    · have hgone' : (info.isCausedByLeave || info.isCausedByDisconnect) = false := by
        simpa using hgone
      simp [Machine.run, machine, hs, hjoin, hgone, hgone', ReplicatedStateMachine.write]

/-! ## The barrier opens -/

/-- A main thread that waits although the group is complete is about to be notified. -/
structure Inv (s : State) : Prop where
  write : ∀ info, s.listener = .write info → s.last = some info
  written : ∀ info ∈ s.last, info.isCausedByJoin →
    s.listener = .write info ∨ s.machine.replicas = info.members
  waiting : s.main = .waiting → ∀ info ∈ s.last,
    s.machine.numberOfReplicas ≤ info.members.length →
      info.isCausedByJoin ∧ (s.listener = .write info ∨ s.listener = .notify info)

theorem inv_start (m : ReplicatedStateMachine) : Inv (start m) where
  write _ h := by cases h
  written _ h := by cases h
  waiting h := by cases h

/-- Between messages there is nobody to notify it any more. -/
theorem Inv.released (h : Inv s) : Released s := by
  rintro hidle ⟨info, hlast, hlen⟩ hwait
  rcases (h.waiting hwait info hlast hlen).2 with hl | hl <;> rw [hidle] at hl <;> cases hl

theorem welcome_replicas (m : ReplicatedStateMachine) :
    (AdvancedListener.welcome m).1.replicas = m.replicas := by
  rw [AdvancedListener.welcome_state]
  rfl

/-- The number of replicas to wait for only grows. -/
theorem numberOfReplicas_le_welcome (m : ReplicatedStateMachine) :
    m.numberOfReplicas ≤ (AdvancedListener.welcome m).1.numberOfReplicas := by
  rw [AdvancedListener.welcome_state]
  exact le_max_left _ _

/-- Once it has been written down, the membership of a join is the one in force. -/
theorem Inv.replicas_eq (h : Inv s) (hl : s.listener ≠ .write info) (hlast : info ∈ s.last)
    (hjoin : info.isCausedByJoin) : s.machine.replicas = info.members :=
  (h.written info hlast hjoin).resolve_left hl

/-- The membership is written down; only a join is followed by a notification. -/
theorem Inv.afterWrite (h : Inv s) (hl : s.listener = .write info) :
    Inv { s with
      machine := { s.machine with replicas := info.members }
      listener := if info.isCausedByJoin then .notify info else .idle } := by
  have hlast := h.write info hl
  constructor
  · intro info' hl'
    dsimp only at hl'
    split at hl' <;> cases hl'
  · intro info' hlast' _
    obtain rfl := Option.some.inj (hlast.symm.trans hlast')
    exact .inr rfl
  · intro hwait info' hlast' hlen
    obtain ⟨hjoin, -⟩ := h.waiting hwait info' hlast' hlen
    obtain rfl := Option.some.inj (hlast.symm.trans hlast')
    exact ⟨hjoin, .inr (if_pos hjoin)⟩

/-- The main thread is notified; it is not left waiting if the group is complete. -/
theorem Inv.afterNotify (h : Inv s) (hl : s.listener = .notify info) :
    Inv { s with
      main := if s.machine.numberOfReplicas ≤ s.machine.replicas.length ∧ s.main = .waiting
        then .notified else s.main
      listener := .answer info } := by
  have hwrite : ∀ info', s.listener ≠ .write info' := fun info' ↦ by simp [hl]
  constructor
  · intro info' hl'
    cases hl'
  · intro info' hlast hjoin
    exact .inr (h.replicas_eq (hwrite info') hlast hjoin)
  · intro hwait info' hlast hlen
    dsimp only at hwait hlen
    split at hwait
    · cases hwait
    · rename_i hn
      obtain ⟨hjoin, -⟩ := h.waiting hwait info' hlast hlen
      have hreplicas := h.replicas_eq (hwrite info') hlast hjoin
      exact absurd ⟨hreplicas ▸ hlen, hwait⟩ hn

/-- The answer is sent; it makes the group complete only for the one that joins. -/
theorem Inv.afterAnswer (h : Inv s) (hl : s.listener = .answer info) :
    Inv { s with
      machine := if some s.machine.privateGroup ≠ info.joined
        then (AdvancedListener.welcome s.machine).1 else s.machine
      listener := .idle } := by
  have hwrite : ∀ info', s.listener ≠ .write info' := fun info' ↦ by simp [hl]
  have hle : s.machine.numberOfReplicas ≤ (if some s.machine.privateGroup ≠ info.joined
      then (AdvancedListener.welcome s.machine).1 else s.machine).numberOfReplicas := by
    split
    · exact numberOfReplicas_le_welcome s.machine
    · exact le_refl _
  constructor
  · intro info' hl'
    cases hl'
  · intro info' hlast hjoin
    have hreplicas := h.replicas_eq (hwrite info') hlast hjoin
    right
    dsimp only
    split
    · rw [welcome_replicas, hreplicas]
    · exact hreplicas
  · intro hwait info' hlast hlen
    rcases (h.waiting hwait info' hlast (le_trans hle hlen)).2 with hl' | hl' <;>
      rw [hl] at hl' <;> cases hl'

/-- The listener goes on. -/
theorem Inv.proceed (h : Inv s) (hs : proceed s = some s') : Inv s' := by
  unfold Barrier.proceed at hs
  split at hs
  · cases hs
  · rename_i info hl
    obtain rfl := Option.some.inj hs
    exact h.afterWrite hl
  · rename_i info hl
    obtain rfl := Option.some.inj hs
    exact h.afterNotify hl
  · rename_i info hl
    obtain rfl := Option.some.inj hs
    exact h.afterAnswer hl

/-- **A step** at which only joins complete the group keeps it so. -/
theorem Inv.step (h : Inv s) (he : ByJoin s e) (hs : machine.step s e = some s') : Inv s' := by
  cases e with
  | check =>
      simp only [machine] at hs
      split at hs
      · obtain rfl := Option.some.inj hs
        refine ⟨h.write, h.written, fun hwait info hlast hlen ↦ ?_⟩
        have hlt : s.machine.replicas.length < s.machine.numberOfReplicas := by
          by_contra hge
          simp [hge] at hwait
        have hjoin := (he info hlast hlen).resolve_right (not_le.mpr hlt)
        refine ⟨hjoin, .inl ((h.written info hlast hjoin).resolve_right fun hreplicas ↦ ?_)⟩
        exact absurd hlen (not_le.mpr (hreplicas ▸ hlt))
      · cases hs
  | wake =>
      simp only [machine] at hs
      split at hs
      · obtain rfl := Option.some.inj hs
        exact ⟨h.write, h.written, fun hwait ↦ by cases hwait⟩
      · cases hs
  | message t =>
      simp only [machine] at hs
      split at hs
      · obtain rfl := Option.some.inj hs
        have hsame := AdvancedListener.sameProcess_regularMessageReceived s.machine t
        refine ⟨h.write, fun info hlast hjoin ↦ ?_, fun hwait info hlast hlen ↦ ?_⟩
        · exact (h.written info hlast hjoin).imp id fun hr ↦ hsame.replicas.trans hr
        · exact h.waiting hwait info hlast (hsame.numberOfReplicas ▸ hlen)
      · cases hs
  | membership info =>
      simp only [machine] at hs
      split at hs
      · obtain rfl := Option.some.inj hs
        refine ⟨fun info' hl ↦ ?_, fun info' hlast hjoin ↦ .inl ?_,
          fun hwait info' hlast hlen ↦ ?_⟩
        · dsimp only at hl
          split at hl
          · exact congrArg some (Listener.write.inj hl)
          · cases hl
        · obtain rfl := Option.some.inj hlast
          exact if_pos (.inl hjoin)
        · obtain rfl := Option.some.inj hlast
          have hjoin := he hwait hlen
          exact ⟨hjoin, .inl (if_pos (.inl hjoin))⟩
      · cases hs
  | proceed => exact h.proceed hs

/-- **The barrier opens.**  In every run in which only joins complete the group, the main
thread never waits, between messages, for a group that is complete. -/
theorem released_of_byJoin {m : ReplicatedStateMachine} {es : List Event}
    (h : machine.Along ByJoin (start m) es) : machine.Always Released (start m) es :=
  (Machine.always_of_invariant (fun _ _ _ ↦ Inv.step) (inv_start m) h).mono fun _ ↦ Inv.released

/-! ## Two partitions -/

/-- `Rep1` is alone in the group and waits for a second member, which comes with `info`. -/
def second (info : MembershipInfo) : List Event :=
  handling ⟨true, false, false, ["#Rep1-17"], some "#Rep1-17"⟩ ++ [.check] ++ handling info

/-- The second member joins. -/
theorem released_of_byJoin_second : machine.Always Released (start (.new "Rep1" "#Rep1-17" 2))
    (second ⟨true, false, false, ["#Rep1-17", "#Rep2-42"], some "#Rep2-42"⟩) :=
  released_of_byJoin (by decide +kernel)

/-- The second member has joined in another partition of the network, and the two partitions
merge: the listener does not look at that membership. -/
theorem not_released_merge : ¬ machine.Always Released (start (.new "Rep1" "#Rep1-17" 2))
    (second ⟨false, false, false, ["#Rep1-17", "#Rep2-42"], none⟩) := by
  decide +kernel

end Barrier

end ReplicatedBank
