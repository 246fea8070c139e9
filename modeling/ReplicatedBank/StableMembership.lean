import ReplicatedBank.FixedGroup
import ReplicatedBank.Spread.Multicast

/-!
# The bank over the daemons

A group of replicas that has finished starting up, over the daemons of a stable membership, with
one replica at each daemon and nothing between the two: the sessions and the client library are
taken to hand on every message, in the order in which the daemon delivers them.

`setFifo` asks for less than these daemons do: they number the messages of all senders in one
order and deliver them in this order, so the replicas agree, which FIFO multicast alone does not
achieve.  They do so as long as the conditions on what happens among them hold
(`Multicast.Settling`), the last of which the daemons leave to chance once in a membership.
-/

namespace ReplicatedBank

open Distributed Spread

variable {n : ℕ} [NeZero n] {β : Type*} [Payload β] {C : Codec Packet β}

/-- Replicas over the daemons. -/
def Group.overDaemons (G : Group (Fin n)) (C : Codec Packet β) :
    Machine (Multicast n Process β) (Multicast.Event n Action β) :=
  Spread.overDaemons (bank fun i ↦ (G.node i).machine.privateGroup) C

/-- The replicas before the first command, and the daemons at the start of a membership. -/
def Group.startOverDaemons (G : Group (Fin n)) (segIndex : Fin n → ℕ) (visits : ℕ)
    (first : Token n) : Multicast n Process β :=
  .start G.node (Ring.start segIndex visits first)

omit [NeZero n] [Payload β] in
/-- Whether an event is a `cleanHistory` command. -/
def cleansHistoryOver : Multicast.Event n Action β → Bool
  | .act _ k => k.isCleanHistory
  | _ => false

variable {G : Group (Fin n)} {segIndex : Fin n → ℕ} {visits : ℕ} {first : Token n}
variable {es : List (Multicast.Event n Action β)} {s : Multicast n Process β}

/-- **Agreement over the daemons.**  The replicas go through the same sequence of changes: of the
executed lists of two replicas one is the beginning of the other, and replicas that have been
handed equally many messages have the same executed list and the same balance. -/
theorem agree_overDaemons (hk : ∀ e ∈ es, ¬cleansHistoryOver e)
    (hc : (G.overDaemons C).Along (Multicast.Settling visits first)
      (G.startOverDaemons segIndex visits first) es)
    (hr : (G.overDaemons C).run (G.startOverDaemons segIndex visits first) es = some s)
    (r r' : Fin n) :
    ((s.node r).machine.replica.executedList <+: (s.node r').machine.replica.executedList ∨
      (s.node r').machine.replica.executedList <+: (s.node r).machine.replica.executedList) ∧
    (s.read r = s.read r' →
      (s.node r).machine.replica.executedList = (s.node r').machine.replica.executedList ∧
      (s.node r).machine.replica.balance = (s.node r').machine.replica.balance) := by
  obtain ⟨fs, f, hfs, hact, h⟩ := exists_simulates (Multicast.along_orderly_of_settling hc) hr
  have hk' : ∀ g ∈ fs, ¬ cleansHistory g := by
    intro g hg
    cases g with
    | act i k => exact hk _ (hact _ hg i k rfl)
    | deliver r i => exact Bool.false_ne_true
  have hexecuted := fun i ↦ executedList_eq_firstCopies hk' hfs i
  have hbalance := fun i ↦ balance_eq_effects hk' hfs i
  unfold executedList at hexecuted hbalance
  unfold balance at hbalance
  rw [h.node] at hexecuted hbalance
  refine ⟨?_, fun hread ↦ ?_⟩
  · rw [hexecuted, hexecuted]
    have hmono : ∀ {r r' : Fin n}, f.delivered r <+: f.delivered r' →
        firstCopies Transaction.uniqueId (monetary (delivered f r)) <+:
          firstCopies Transaction.uniqueId (monetary (delivered f r')) := fun hp ↦
      firstCopies_isPrefix (((hp.map Prod.snd).map Packet.transaction).filter _)
    exact (h.delivered_comparable r r').imp hmono hmono
  · have hdelivered : delivered f r = delivered f r' := by
      unfold delivered Fifo.State.history
      rw [h.delivered_eq hread]
    have heq : (s.node r).machine.replica.executedList =
        (s.node r').machine.replica.executedList := by
      rw [hexecuted, hexecuted, hdelivered]
    exact ⟨heq, by rw [hbalance, hbalance, heq]⟩

/-! ## Two replicas -/

/-- In the example a piece is a transaction, which fits into one packet. -/
instance : Payload Packet := ⟨fun _ ↦ 100, fun _ ↦ by decide⟩

/-- Each multicast is a FIFO message of one piece. -/
def onePiece : Codec Packet Packet where
  encode q := ⟨.fifo, [q], List.cons_ne_nil q [], one_le_maxScatterElements⟩
  decode c := c.2.head?
  decode_encode _ := rfl
  ordered _ := rfl

/-- A deposit at one replica and interest at the other, as in `crossing`, and the token goes
around.  The send of the second network packet fails, but the packet gets through. -/
def crossingTokens : List (Multicast.Event 2 Action Packet) :=
  [.act 0 (.command "deposit 100"), .act 1 (.command "addInterest 10"),
    .act 0 (.tick 1), .act 1 (.tick 1), .network (.token 0 []), .network (.packets 1 0),
    .network (.token 1 [false]), .network (.packets 0 1), .network (.token 2 []), .read 0,
    .read 1, .read 0, .network (.token 3 []), .read 1]

/-- The first token: it carries more than is in use, and no daemon of the membership wrote it. -/
def pairFirst : Token 2 := ⟨0, 0, 0, 3333, none, 0, []⟩

/-- The daemons at the start of a membership of two. -/
def pairOverDaemons : Multicast 2 Process Packet :=
  pair.startOverDaemons (fun _ ↦ 0) 0 pairFirst

theorem settling_crossingTokens :
    (pair.overDaemons onePiece).Along (Multicast.Settling 0 pairFirst) pairOverDaemons
      crossingTokens := by
  decide +kernel

theorem isSome_crossingTokens :
    ((pair.overDaemons onePiece).run pairOverDaemons crossingTokens).isSome := by
  decide +kernel

/-- The state that the run leads to. -/
def afterCrossing : Multicast 2 Process Packet :=
  ((pair.overDaemons onePiece).run pairOverDaemons crossingTokens).get isSome_crossingTokens

theorem agree_overDaemons_crossingTokens :
    ((afterCrossing.node 0).machine.replica.executedList <+:
        (afterCrossing.node 1).machine.replica.executedList ∨
      (afterCrossing.node 1).machine.replica.executedList <+:
        (afterCrossing.node 0).machine.replica.executedList) ∧
    (afterCrossing.read 0 = afterCrossing.read 1 →
      (afterCrossing.node 0).machine.replica.executedList =
          (afterCrossing.node 1).machine.replica.executedList ∧
      (afterCrossing.node 0).machine.replica.balance =
        (afterCrossing.node 1).machine.replica.balance) :=
  agree_overDaemons (by decide +kernel) settling_crossingTokens
    (Option.some_get isSome_crossingTokens).symm 0 1

end ReplicatedBank
