import ReplicatedBank.Distributed.Machine
import ReplicatedBank.Spread.Daemon

/-!
# The daemons of a membership

The daemons of a stable membership and the network between them.  Whatever was sent may
arrive at any time from then on, any number of times, or never, packets at any daemon and a
token at the daemon that follows its sender on the ring.

The state also records its history: how often the token was handled, all packets in the order
of their numbers, and the messages that each daemon was given.
-/

namespace Spread

open Distributed

variable {n : ℕ} {β : Type*}

/-! ## Rounds -/

/-- How often a daemon has had its turn when there were so many turns in all. -/
def rounds (visits : ℕ) (i : Fin n) : ℕ :=
  if i.val < visits % n then visits / n + 1 else visits / n

section

variable [NeZero n]

/-- The daemon whose turn it is. -/
def turn (visits : ℕ) : Fin n := Fin.ofNat n visits

/-- The daemons in the order in which they last had their turn. -/
def order (visits : ℕ) : List (Fin n) := (List.finRange n).rotate visits

end

/-! ## The state -/

/-- The daemons of a membership and the network. -/
structure Ring (n : ℕ) (β : Type*) where
  /-- The daemons, or what ended them. -/
  daemon : Fin n → Except Alarm (Daemon n β)
  /-- The network packets that were sent. -/
  packets : List (List (Packet n β))
  /-- The tokens that were sent, each with its sender and the sender's round. -/
  tokens : List (Fin n × ℕ × Token n)
  /-- Whether the leader was asked to send the token that it holds. -/
  hurried : Bool
  /-- How often the token was handled. -/
  visits : ℕ
  /-- The packets of the membership. -/
  log : List (Packet n β)
  /-- The messages that each daemon was given. -/
  submitted : Fin n → List (DownLink β)

/-- What can happen next. -/
inductive Event (n : ℕ) (β : Type*) where
  /-- A session hands a message to its daemon. -/
  | message (i : Fin n) (m : DownLink β)
  /-- A network packet arrives. -/
  | packets (i : Fin n) (k : ℕ)
  /-- A token arrives; the results of the sends that follow, if it is handled. -/
  | token (k : ℕ) (results : List Bool)
  /-- A request arrives at the leader to send the token that it holds. -/
  | hurry
  /-- The leader has waited for the token for too long. -/
  | timeout
deriving DecidableEq, Repr

/-- A daemon at the start of a membership. -/
def Daemon.start (my : Proc n) (lastToken : Token n) : Daemon n β where
  my := my
  packets := fun _ ↦ none
  upQueue := fun _ ↦ none
  downQueue := []
  curElement := 0
  highestSeq := 0
  highestFifoSeq := 0
  myAru := 0
  aru := 0
  setAru := none
  lastDiscarded := 0
  lastDelivered := 0
  tokenCounter := 0
  lastToken := lastToken
  lastNumRetrans := 0
  lastNumSent := 0
  messages := []

namespace Ring

/-- What a daemon has done: its new state, and what it has sent. -/
def emit (s : Ring n β) (i : Fin n) (r : Daemon n β × Output n β) : Ring n β :=
  { s with
    daemon := Function.update s.daemon i (.ok r.1)
    packets := s.packets ++ r.2.packets
    tokens := s.tokens ++ r.2.tokens.map fun t ↦ (i, rounds s.visits i, t)
    hurried := s.hurried || r.2.hurry }

variable [NeZero n]

/-- The start of a membership: nothing was sent, and the token of an earlier round is on its way
to the daemon whose turn it is.  The daemons have set the number on the token that they remember
back to 0.  On the token that is on its way it is still what it was while the membership was
formed: `Read_form2` sets it to `Last_seq`, which is higher than all numbers of the memberships
before, and leaves `aru_last_id` as it was.  Only if a daemon lacked packets of an earlier
membership is it itself the last writer when it gets the first token.  If the first token is
lost, the one that is remembered takes its place. -/
def start (segIndex : Fin n → ℕ) (visits : ℕ) (first : Token n) : Ring n β where
  daemon i := .ok (.start ⟨i, segIndex i⟩
    { first with arq := rounds visits i % 16, seq := 0, aru := 0, rtr := [] })
  packets := []
  tokens := [(turn visits - 1, rounds visits (turn visits - 1 : Fin n),
    { first with arq := rounds visits (turn visits - 1 : Fin n) % 16, seq := 0, rtr := [] })]
  hurried := false
  visits := visits
  log := []
  submitted _ := []

variable [Payload β]

/-- A token arrives at a daemon. -/
def arrive (s : Ring n β) (i : Fin n) (d : Daemon n β) (t : Token n) (results : List Bool) :
    Ring n β :=
  match d.protHandleToken t results with
  | .error alarm => { s with daemon := Function.update s.daemon i (.error alarm) }
  | .ok (d', out, created) =>
      emit { s with
        visits := if d.verdict t = .handle then s.visits + 1 else s.visits
        log := s.log ++ created } i (d', out)

end Ring

/-- The daemons of a membership at work. -/
def ring [NeZero n] [Payload β] : Machine (Ring n β) (Event n β) where
  step s
    | .message i m => (s.daemon i).toOption.map fun d ↦
        { s.emit i (d.protNewMessage m) with
          submitted := Function.update s.submitted i (s.submitted i ++ [m]) }
    | .packets i k => (s.daemon i).toOption.bind fun d ↦ s.packets[k]?.map fun ps ↦
        { s with daemon := Function.update s.daemon i (d.protHandleBcast ps) }
    | .token k results => s.tokens[k]?.bind fun p ↦
        (s.daemon (p.1 + 1)).toOption.map fun d ↦ s.arrive (p.1 + 1) d p.2.2 results
    | .hurry =>
        if s.hurried then (s.daemon 0).toOption.map fun d ↦ s.emit 0 d.handleHurry else none
    | .timeout => (s.daemon 0).toOption.map fun d ↦ s.emit 0 d.protTokenHurry

/-! ## Conditions on runs -/

/-- No token arrives that is fifteen rounds old, since the four bits of the round would not tell
it from the next one. -/
def Fresh [NeZero n] (s : Ring n β) : Event n β → Prop
  | .token k _ => ∀ p ∈ s.tokens[k]?, rounds s.visits p.1 < p.2.1 + 15
  | _ => True

/-- The sends that may fail while a daemon has the token: they are not counted, so more packets
are made. -/
def maxFailed : ℕ := 148

/-- Not too many sends fail, and the numbers are not exhausted: there are as many left as there
are slots, and no daemon has counted quiet rounds up to the highest number. -/
def Fits (s : Ring n β) : Event n β → Prop
  | .token _ results => results.count false ≤ maxFailed ∧
      s.log.length + maxPacketsInStruct ≤ maxInt32 ∧
      ∀ i, ∀ d ∈ (s.daemon i).toOption, d.tokenCounter < maxInt32
  | _ => True

/-- No daemon raises `Token->aru` because it finds its own number there, while another daemon
keeps that number down. -/
def RaisesAlone [NeZero n] (s : Ring n β) : Event n β → Prop
  | .token k _ => ∀ p ∈ s.tokens[k]?, ∀ d ∈ (s.daemon (p.1 + 1)).toOption,
      d.verdict p.2.2 = .handle → d.setAru = some p.2.2.aru →
        ∀ j, j ≠ p.1 + 1 → ∀ d' ∈ (s.daemon j).toOption, d'.setAru = none
  | _ => True

/-- The conditions on a run. -/
structure Orderly [NeZero n] (s : Ring n β) (e : Event n β) : Prop where
  fresh : Fresh s e
  fits : Fits s e
  raisesAlone : RaisesAlone s e

/-- The first token carries 0, or was written by the daemon that has it first. -/
def RegularStart [NeZero n] (visits : ℕ) (first : Token n) : Prop :=
  first.aru = 0 ∨ first.aruLastId = some (turn visits)

/-- The conditions on a run from a given start, in which one visit alone is asked to raise no
number that another daemon keeps down: the second one of the daemon that has the first token, and
only if this token is not regular. -/
def Settling [NeZero n] (visits : ℕ) (first : Token n) (s : Ring n β) (e : Event n β) : Prop :=
  Fresh s e ∧ Fits s e ∧ (s.visits = visits + n → ¬RegularStart visits first → RaisesAlone s e)

section

variable [NeZero n] (s : Ring n β)

instance : ∀ e : Event n β, Decidable (Fresh s e)
  | .token k _ => inferInstanceAs (Decidable (∀ p ∈ s.tokens[k]?, _))
  | .message _ _ | .packets _ _ | .hurry | .timeout => .isTrue trivial

instance : ∀ e : Event n β, Decidable (Fits s e)
  | .token _ _ => inferInstanceAs (Decidable (_ ∧ _ ∧ ∀ i, ∀ d ∈ (s.daemon i).toOption, _))
  | .message _ _ | .packets _ _ | .hurry | .timeout => .isTrue trivial

instance : ∀ e : Event n β, Decidable (RaisesAlone s e)
  | .token k _ => inferInstanceAs (Decidable (∀ p ∈ s.tokens[k]?,
      ∀ d ∈ (s.daemon (p.1 + 1)).toOption, _ → _ → ∀ j, j ≠ p.1 + 1 →
        ∀ d' ∈ (s.daemon j).toOption, _))
  | .message _ _ | .packets _ _ | .hurry | .timeout => .isTrue trivial

instance (visits : ℕ) (first : Token n) : Decidable (RegularStart visits first) :=
  inferInstanceAs (Decidable (_ ∨ _))

instance (visits : ℕ) (first : Token n) (e : Event n β) : Decidable (Settling visits first s e) :=
  inferInstanceAs (Decidable (_ ∧ _ ∧ (_ → ¬_ → _)))

end

end Spread
