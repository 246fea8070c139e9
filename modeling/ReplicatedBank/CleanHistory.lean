import ReplicatedBank.Distributed.Machine
import ReplicatedBank.Process

/-!
# Clearing the history

`cleanHistory` empties `executedList`, which is the history shown to the user and the only
duplicate filter.  Its effect on money is a statement about two runs: a replica's events
with and without its `cleanHistory` commands.  The two ledgers start to differ when a
message arrives whose id has been forgotten, that is, executed and cleared since; from
then on they may also differ in whether an `UPDATE_BALANCE` is still welcome.

A `Watched` replica carries these two pieces of information along, and
`unaffected_iff` says exactly which deliveries keep the balances of the two runs equal.
-/

namespace ReplicatedBank

open Distributed

/-- What can happen to a replica. -/
inductive LocalEvent where
  /-- The main thread processes a line. -/
  | command (input : String)
  /-- The executor multicasts. -/
  | tick (sent : ℕ)
  /-- A message is delivered. -/
  | message (t : Transaction)
  /-- A membership is delivered. -/
  | membership (info : MembershipInfo)
deriving DecidableEq

namespace LocalEvent

/-- Whether an event is a `cleanHistory` command. -/
def isCleanHistory : LocalEvent → Bool
  | .command input => ReplicatedBank.isCleanHistory input
  | .tick _ | .message _ | .membership _ => false

/-- The replica after an event. -/
def apply (m : ReplicatedStateMachine) : LocalEvent → ReplicatedStateMachine
  | .command input => m.command input
  | .tick sent => (m.broadcast sent).1
  | .message t => AdvancedListener.regularMessageReceived m t
  | .membership info => (AdvancedListener.membershipMessageReceived m info).1

end LocalEvent

/-- Deleting the `cleanHistory` commands from a sequence of events leaves the balance after
every other event as it is. -/
def Unaffected (m : ReplicatedStateMachine) (es : List LocalEvent) : Prop :=
  ∀ fs, fs <+: es → (fs.foldl LocalEvent.apply m).replica.balance =
    ((fs.filter (!·.isCleanHistory)).foldl LocalEvent.apply m).replica.balance

/-- A replica with what is left of the history that it has cleared. -/
structure Watched where
  machine : ReplicatedStateMachine
  /-- The ids of the executed transactions that have been cleared. -/
  forgotten : List String
  /-- Whether no `UPDATE_BALANCE` has arrived whose id was not that of a transaction executed
  before, cleared or not. -/
  waiting : Bool

namespace Watched

/-- A replica from now on. -/
def start (m : ReplicatedStateMachine) : Watched := ⟨m, [], !m.alreadyInitializedBalance⟩

/-- The ids of all transactions executed so far, cleared or not. -/
def known (s : Watched) : List String := s.forgotten ++ ids s.machine.ledger.executed

/-- A watched replica as a machine; every event is always possible. -/
def system : Machine Watched LocalEvent where
  step s e := some
    { machine := e.apply s.machine
      forgotten := if e.isCleanHistory then s.known else s.forgotten
      waiting := match e with
        | .message t => s.waiting && !(t.type = .updateBalance && t.uniqueId ∉ s.known)
        | .command _ | .tick _ | .membership _ => s.waiting }

/-- A message that makes no difference although it meets a cleared history: a forgotten
transaction has no effect on the balance, and an `UPDATE_BALANCE` that is installed under a
forgotten id, or would be installed for the first time had that not happened before,
carries the balance the replica has. -/
def Harmless (s : Watched) : LocalEvent → Prop
  | .message t =>
      let b := s.machine.replica.balance
      (t.isMonetary → s.machine.ledger.Executes t → t.uniqueId ∈ s.forgotten → t.effect b = b) ∧
      (t.type = .updateBalance → s.machine.ledger.Installs t → t.uniqueId ∈ s.forgotten →
        t.balance = b) ∧
      (t.type = .updateBalance → s.machine.alreadyInitializedBalance → s.waiting →
        t.uniqueId ∉ s.known → t.balance = b)
  | .command _ | .tick _ | .membership _ => True

/-! ## The two runs side by side -/

/-- A watched replica next to one that has had the same events except for the
`cleanHistory` commands. -/
structure Parallel (s : Watched) (m : ReplicatedStateMachine) : Prop where
  balance_eq : s.machine.ledger.balance = m.ledger.balance
  mem_known : ∀ x, x ∈ ids m.ledger.executed ↔ x ∈ s.known
  waiting_eq : s.waiting = !m.ledger.initialized
  initialized : s.waiting = false → s.machine.ledger.initialized

theorem parallel_start (m : ReplicatedStateMachine) : Parallel (start m) m where
  balance_eq := rfl
  mem_known x := by simp [known, start]
  waiting_eq := rfl
  initialized h := by simpa [ReplicatedStateMachine.ledger, start] using h

variable {s : Watched} {m : ReplicatedStateMachine} {t : Transaction} {e : LocalEvent}

/-- The other run has executed what is forgotten and what is not. -/
theorem Parallel.mem_ids_executed (h : Parallel s m) {x : String} :
    x ∈ ids m.ledger.executed ↔ x ∈ s.forgotten ∨ x ∈ ids s.machine.ledger.executed :=
  (h.mem_known x).trans List.mem_append

/-- Executed again because it has been forgotten. -/
theorem Parallel.mem_forgotten_of_executes (h : Parallel s m)
    (hx : s.machine.ledger.Executes t) (hx' : ¬ m.ledger.Executes t) :
    t.uniqueId ∈ s.forgotten := by
  by_contra hf
  refine hx' ⟨hx.isMonetary, fun hm ↦ ?_⟩
  exact (h.mem_ids_executed.mp hm).elim hf hx.fresh

/-- Installed under a forgotten id: the other replica still waits for a balance too. -/
theorem Parallel.mem_forgotten_of_installs (h : Parallel s m)
    (hi : s.machine.ledger.Installs t) (hi' : ¬ m.ledger.Installs t) :
    t.uniqueId ∈ s.forgotten := by
  have hwaiting : s.waiting = true := by
    by_contra hw
    exact absurd (hi.uninitialized.symm.trans (h.initialized (by simpa using hw))) (by simp)
  have huninitialized : m.ledger.initialized = false := by
    simpa [hwaiting] using h.waiting_eq
  by_contra hf
  refine hi' ⟨hi.type_eq, huninitialized, fun hm ↦ ?_⟩
  exact (h.mem_ids_executed.mp hm).elim hf hi.fresh

/-- Installed by the other replica only: this one has installed a forgotten id before. -/
theorem Parallel.waiting_of_installs (h : Parallel s m)
    (hi : ¬ s.machine.ledger.Installs t) (hi' : m.ledger.Installs t) :
    s.machine.ledger.initialized ∧ s.waiting ∧ t.uniqueId ∉ s.known := by
  have hfresh : t.uniqueId ∉ s.known := fun hm ↦ hi'.fresh ((h.mem_known _).mpr hm)
  refine ⟨?_, ?_, hfresh⟩
  · by_contra hn
    refine hi ⟨hi'.type_eq, (Bool.not_eq_true _).mp hn, fun hm ↦ hfresh ?_⟩
    exact List.mem_append_right _ hm
  · rw [h.waiting_eq, hi'.uninitialized]
    rfl

/-- A message keeps the balances equal exactly if it is harmless. -/
theorem Parallel.balance_eq_iff (h : Parallel s m) (t : Transaction) :
    (s.machine.ledger.deliver t).balance = (m.ledger.deliver t).balance ↔
      s.Harmless (.message t) := by
  have hb : s.machine.ledger.balance = m.ledger.balance := h.balance_eq
  rcases s.machine.ledger.deliver_cases t with ⟨hx, hd⟩ | ⟨hi, hd⟩ | ⟨hx, hi, hd⟩ <;>
    rcases m.ledger.deliver_cases t with ⟨hx', hd'⟩ | ⟨hi', hd'⟩ | ⟨hx', hi', hd'⟩ <;>
    rw [hd, hd']
  · -- executed by both
    refine iff_of_true (congrArg t.effect hb) ⟨fun _ _ hf ↦ ?_, fun hty ↦ ?_, fun hty ↦ ?_⟩
    · exact absurd (h.mem_ids_executed.mpr (.inl hf)) hx'.fresh
    · exact absurd hty hx.ne_updateBalance
    · exact absurd hty hx.ne_updateBalance
  · exact absurd hi'.type_eq hx.ne_updateBalance
  · -- executed again
    have hforgotten := h.mem_forgotten_of_executes hx hx'
    refine ⟨fun heq ↦ ⟨fun _ _ _ ↦ heq.trans hb.symm, fun hty ↦ ?_, fun hty ↦ ?_⟩,
      fun hh ↦ (hh.1 hx.isMonetary hx hforgotten).trans hb⟩
    · exact absurd hty hx.ne_updateBalance
    · exact absurd hty hx.ne_updateBalance
  · exact absurd hi.type_eq hx'.ne_updateBalance
  · -- installed by both
    refine iff_of_true rfl ⟨fun hm ↦ ?_, fun _ _ hf ↦ ?_, fun _ hinit ↦ ?_⟩
    · exact absurd hm hi.not_isMonetary
    · exact absurd (h.mem_ids_executed.mpr (.inl hf)) hi'.fresh
    · exact absurd (hi.uninitialized.symm.trans hinit) (by simp)
  · -- installed under a forgotten id
    have hforgotten := h.mem_forgotten_of_installs hi hi'
    refine ⟨fun heq ↦ ⟨fun hm ↦ ?_, fun _ _ _ ↦ heq.trans hb.symm, fun _ hinit ↦ ?_⟩,
      fun hh ↦ (hh.2.1 hi.type_eq hi hforgotten).trans hb⟩
    · exact absurd hm hi.not_isMonetary
    · exact absurd (hi.uninitialized.symm.trans hinit) (by simp)
  · -- what the cleared history knows, the other one knows
    refine absurd ⟨hx'.isMonetary, fun hm ↦ ?_⟩ hx
    exact hx'.fresh (h.mem_ids_executed.mpr (.inr hm))
  · -- installed by the other one only
    obtain ⟨hinit, hwaiting, hfresh⟩ := h.waiting_of_installs hi hi'
    refine ⟨fun heq ↦ ⟨fun hm ↦ ?_, fun _ hinst ↦ absurd hinst hi, fun _ _ _ _ ↦ heq.symm⟩,
      fun hh ↦ (hh.2.2 hi'.type_eq hinit hwaiting hfresh).symm⟩
    exact absurd hm hi'.not_isMonetary
  · -- ignored by both
    refine iff_of_true hb ⟨fun _ hc ↦ absurd hc hx, fun _ hc ↦ absurd hc hi,
      fun hty _ hw hf ↦ absurd ⟨hty, ?_, fun hm ↦ hf ((h.mem_known _).mp hm)⟩ hi'⟩
    simpa [hw] using h.waiting_eq

/-- The bookkeeping is right after a message. -/
theorem Parallel.message (h : Parallel s m) (hh : s.Harmless (.message t)) {s' : Watched}
    (hs : system.step s (.message t) = some s') :
    Parallel s' (AdvancedListener.regularMessageReceived m t) := by
  obtain rfl := Option.some.inj hs
  have hledger := s.machine.ledger_regularMessageReceived t
  have hledger' := m.ledger_regularMessageReceived t
  refine ⟨?_, fun x ↦ ?_, ?_, fun hw ↦ ?_⟩
  · rw [LocalEvent.apply, hledger, hledger']
    exact (h.balance_eq_iff t).mpr hh
  · rw [known, LocalEvent.apply, hledger, hledger', List.mem_append,
      Ledger.mem_ids_executed_deliver, Ledger.mem_ids_executed_deliver, ← or_assoc]
    exact or_congr_left h.mem_ids_executed
  · rw [hledger', Ledger.initialized_deliver]
    simp [h.mem_known, h.waiting_eq]
  · rw [LocalEvent.apply, hledger, Ledger.initialized_deliver, Bool.or_eq_true]
    cases hwaiting : s.waiting with
    | false => exact .inl (h.initialized hwaiting)
    | true =>
        have hw : ¬ (t.type = .updateBalance → t.uniqueId ∈ s.known) := by
          simpa [hwaiting] using hw
        have hty : t.type = .updateBalance := by
          by_contra hc
          exact hw fun hty ↦ absurd hty hc
        refine .inr (decide_eq_true ⟨hty, fun hm ↦ hw fun _ ↦ ?_⟩)
        exact List.mem_append_right _ hm

/-- So is it after a `cleanHistory`, which the other run does not have. -/
theorem Parallel.cleanHistory (h : Parallel s m) {input : String}
    (he : isCleanHistory input) {s' : Watched}
    (hs : system.step s (.command input) = some s') : Parallel s' m := by
  obtain rfl := Option.some.inj hs
  have hmem : ∀ x, x ∈ ids (s.machine.command input).ledger.executed → x ∈ s.known := by
    intro x hx
    rcases s.machine.ledger_command_cases input with hl | ⟨-, hl⟩ <;> rw [hl] at hx
    · exact List.mem_append_right _ hx
    · cases hx
  have hl : (s.machine.command input).ledger.balance = s.machine.ledger.balance ∧
      (s.machine.command input).ledger.initialized = s.machine.ledger.initialized := by
    rcases s.machine.ledger_command_cases input with hl | ⟨-, hl⟩ <;> simp only [hl, and_self]
  refine ⟨hl.1.trans h.balance_eq, fun x ↦ (h.mem_known x).trans ?_, h.waiting_eq,
    fun hw ↦ hl.2.trans (h.initialized hw)⟩
  rw [if_pos (show (LocalEvent.command input).isCleanHistory from he)]
  exact ⟨List.mem_append_left _, fun hx ↦ (List.mem_append.mp hx).elim id (hmem x)⟩

/-- And after an event that leaves both ledgers as they are. -/
theorem Parallel.same (h : Parallel s m) {s' : Watched} {m' : ReplicatedStateMachine}
    (hs : s'.machine.ledger = s.machine.ledger) (hm : m'.ledger = m.ledger)
    (hf : s'.forgotten = s.forgotten) (hw : s'.waiting = s.waiting) : Parallel s' m' := by
  obtain ⟨hb, hk, hwaiting, hinit⟩ := h
  exact ⟨by rw [hs, hm, hb], fun x ↦ by rw [hm, hk, known, known, hs, hf],
    by rw [hm, hw, hwaiting], fun h ↦ by rw [hs]; exact hinit (hw ▸ h)⟩

/-- **One event** keeps the two runs side by side. -/
theorem Parallel.step (h : Parallel s m) (hh : s.Harmless e) {s' : Watched}
    (hs : system.step s e = some s') :
    Parallel s' (([e].filter (!·.isCleanHistory)).foldl LocalEvent.apply m) := by
  cases e with
  | command input =>
      by_cases hc : isCleanHistory input
      · rw [List.filter_cons_of_neg (by simpa [LocalEvent.isCleanHistory] using hc)]
        exact h.cleanHistory hc hs
      · rw [List.filter_cons_of_pos (by simpa [LocalEvent.isCleanHistory] using hc)]
        obtain rfl := Option.some.inj hs
        exact h.same (s.machine.ledger_command hc) (m.ledger_command hc)
          (if_neg (show ¬ (LocalEvent.command input).isCleanHistory from hc)) rfl
  | tick sent =>
      obtain rfl := Option.some.inj hs
      exact h.same (s.machine.ledger_broadcast sent) (m.ledger_broadcast sent) rfl rfl
  | message t => exact h.message hh hs
  | membership info =>
      obtain rfl := Option.some.inj hs
      exact h.same (s.machine.ledger_membershipMessageReceived info)
        (m.ledger_membershipMessageReceived info) rfl rfl

/-- An event after which the balances agree was harmless. -/
theorem Parallel.harmless (h : Parallel s m)
    (hb : (e.apply s.machine).ledger.balance =
      (([e].filter (!·.isCleanHistory)).foldl LocalEvent.apply m).ledger.balance) :
    s.Harmless e := by
  cases e with
  | message t =>
      refine (h.balance_eq_iff t).mp ?_
      rw [← ReplicatedStateMachine.ledger_regularMessageReceived,
        ← ReplicatedStateMachine.ledger_regularMessageReceived]
      exact hb
  | command input => trivial
  | tick sent => trivial
  | membership info => trivial

/-- The balances of two runs side by side agree exactly if all events are harmless. -/
theorem Parallel.along_iff (es : List LocalEvent) (h : Parallel s m) :
    (∀ fs, fs <+: es → (fs.foldl LocalEvent.apply s.machine).ledger.balance =
      ((fs.filter (!·.isCleanHistory)).foldl LocalEvent.apply m).ledger.balance) ↔
      system.Along Harmless s es := by
  induction es generalizing s m with
  | nil =>
      refine iff_of_true (fun fs hfs ↦ ?_) trivial
      obtain rfl := List.prefix_nil.mp hfs
      exact h.balance_eq
  | cons e es ih =>
      have hsplit : ∀ fs : List LocalEvent, (e :: fs).filter (!·.isCleanHistory) =
          [e].filter (!·.isCleanHistory) ++ fs.filter (!·.isCleanHistory) := fun fs ↦
        List.filter_append [e] fs
      constructor
      · intro hb
        have hh : s.Harmless e := by
          refine h.harmless ?_
          simpa using hb [e] (List.prefix_append [e] es)
        refine ⟨hh, fun s' hs ↦ (ih (h.step hh hs)).mp fun fs hfs ↦ ?_⟩
        have := hb (e :: fs) ((List.prefix_cons_inj e).mpr hfs)
        rw [hsplit, List.foldl_append] at this
        obtain rfl := Option.some.inj hs
        exact this
      · rintro ⟨hh, hrest⟩ fs hfs
        rcases List.prefix_cons_iff.mp hfs with rfl | ⟨gs, rfl, hgs⟩
        · exact h.balance_eq
        · rw [hsplit, List.foldl_append]
          exact (ih (h.step hh rfl)).mpr (hrest _ rfl) gs hgs

end Watched

/-- **`cleanHistory` and money.**  Deleting the `cleanHistory` commands makes no difference
to any balance exactly if every message that meets a forgotten id is harmless. -/
theorem unaffected_iff (m : ReplicatedStateMachine) (es : List LocalEvent) :
    Unaffected m es ↔ Watched.system.Along Watched.Harmless (Watched.start m) es :=
  (Watched.parallel_start m).along_iff es

/-- A deposit that was multicast twice before it was delivered, and is delivered on both
sides of a `cleanHistory`. -/
def depositTwice : List LocalEvent :=
  [.command "deposit 100", .tick 1, .tick 1,
    .message ⟨"Rep1 0", "deposit", 100, 0, .deposit⟩, .command "cleanHistory",
    .message ⟨"Rep1 0", "deposit", 100, 0, .deposit⟩]

/-- The deposit counts twice: the balance is 200, and 100 without the `cleanHistory`. -/
theorem not_unaffected_depositTwice :
    ¬ Unaffected (Process.started "Rep1" "#Rep1" 1 0).machine depositTwice := fun h ↦
  absurd (h depositTwice (List.prefix_refl _)) (by decide +kernel)

end ReplicatedBank
