import ReplicatedBank.Distributed.Aru
import ReplicatedBank.Spread.Ring
import ReplicatedBank.Spread.Sending

/-!
# A visit of the token

What `Prot_handle_token` does with a token that is to be handled, in the terms of the scheme
of acknowledgement: the daemon passes on the number that the scheme says, remembers the mark
that the scheme says, and takes to be received everywhere what the scheme says.
-/

namespace Spread

open Program Distributed

variable {n : ℕ} {β : Type*} [NeZero n] {log : List (Packet n β)} {d : Daemon n β}
variable {t : Token n} {A : Aru.State (Fin n)} {submitted : List (DownLink β)}

/-- The new packets during one visit are at most these. -/
def maxNew : ℕ := maxPacked * (15 + maxFailed + 1)

/-- The scheme of acknowledgement, as far as a daemon and the token that it handles show it. -/
structure Shows (A : Aru.State (Fin n)) (d : Daemon n β) (t : Token n) : Prop where
  mark : A.mark d.my.id = d.setAru
  left : A.left d.my.id = d.lastToken.aru
  aru : A.aru = t.aru
  last : A.last = t.aruLastId
  seq : A.seq = t.seq

omit [NeZero n] in
/-- `Token->aru` and `Set_aru` are those of the scheme. -/
theorem updateAru_eq (hmark : A.mark d.my.id = d.setAru) (haru : A.aru = t.aru)
    (hlast : A.last = t.aruLastId) (hseq : A.seq = t.seq) :
    (d.updateAru t).1.aru = A.passed d.my.id d.myAru ∧
      (d.updateAru t).1.aruLastId =
        (if A.Writes d.my.id d.myAru then some d.my.id else A.last) ∧
      (d.updateAru t).2 = A.marked d.my.id d.myAru d.highestSeq := by
  have hraises : A.Raises d.my.id ↔
      some t.aru = d.setAru ∨ t.aruLastId = some d.my.id ∨ t.aru = t.seq := by
    rw [Aru.State.Raises, hmark, haru, hlast, hseq, eq_comm (a := d.setAru)]
  unfold Daemon.updateAru Aru.State.passed Aru.State.marked Aru.State.Writes
  by_cases hr : A.Raises d.my.id
  · simp [hr, hraises.mp hr]
  · have hr' := mt hraises.mpr hr
    by_cases hlt : d.myAru < t.aru
    · simp [hr, hr', hlt, haru]
    · simp [hr, hr', hlt, haru, hlast]

/-- What a daemon needs to handle a token. -/
structure Ready (log : List (Packet n β)) (submitted : List (DownLink β))
    (A : Aru.State (Fin n)) (d : Daemon n β) (t : Token n) : Prop where
  wellFormed : WellFormed log
  consistent : Consistent log d
  sender : Sender log submitted d
  shows : Shows A d t
  seq : t.seq = log.length
  discarded : d.lastDiscarded = d.aru
  requests : ∀ rtr ∈ t.rtr, ∀ seq ∈ rtr.seqs, d.aru ≤ seq
  stable_left : d.aru ≤ d.lastToken.aru
  stable_aru : d.aru ≤ t.aru
  window : log.length ≤ d.aru + maxSeqGap + maxNew
  room : log.length + maxPacketsInStruct ≤ maxInt32
  counter : d.tokenCounter < maxInt32

/-- What a visit leads to. -/
structure Visited (log : List (Packet n β)) (submitted : List (DownLink β))
    (A : Aru.State (Fin n)) (d : Daemon n β) (t : Token n) (d' : Daemon n β)
    (out : Output n β) (created : List (Packet n β)) : Prop where
  my : d'.my = d.my
  wellFormed : WellFormed (log ++ created)
  consistent : Consistent (log ++ created) d'
  sender : Sender (log ++ created) submitted d'
  mine : ∀ p ∈ created, p.procId = d.my.id
  sent : ∀ ps ∈ out.packets, ∀ p ∈ ps, p ∈ log ++ created
  few : created = [] ∨ (log ++ created).length ≤ d.aru + maxSeqGap + maxNew
  fits : (log ++ created).length < maxInt32
  messages : d.messages <+: d'.messages
  myAru_le : d.myAru ≤ d'.myAru
  highest : d'.highestSeq = (log ++ created).length
  setAru : d'.setAru = A.marked d.my.id d'.myAru (log ++ created).length
  aru : d'.aru = min (A.left d.my.id) (A.passed d.my.id d'.myAru)
  discarded : d'.lastDiscarded = d'.aru
  tokens : ∀ t' ∈ out.tokens, t' = d'.lastToken
  seq : d'.lastToken.seq = (log ++ created).length
  tokenAru : d'.lastToken.aru = A.passed d.my.id d'.myAru
  last : d'.lastToken.aruLastId =
    if A.Writes d.my.id d'.myAru then some d.my.id else A.last
  arq : d'.lastToken.arq = if d.isLeader then (t.arq + 1) % 16 else t.arq
  requests : ∀ rtr ∈ d'.lastToken.rtr, ∀ seq ∈ rtr.seqs, d'.myAru < seq

omit [NeZero n] in
/-- How many network packets may be sent. -/
theorem fcAllowed_returns (haru : d.aru + maxSeqGap ≤ maxInt32) (flowControl : ℤ) :
    Returns (d.fcAllowed flowControl) fun k ↦ k ≤ 15 ∧
      (k = 0 ∨ d.highestSeq ≤ d.aru + maxSeqGap) := by
  unfold Daemon.fcAllowed Daemon.window Daemon.personalWindow
  rw [if_neg (Nat.not_lt.mpr haru)]
  split
  · exact returns_ok.mpr ⟨Nat.zero_le _, Or.inl rfl⟩
  · exact returns_ok.mpr (by omega)

omit [NeZero n] in
/-- Nothing is requested that is there. -/
theorem lt_of_mem_requests {procId : Option (Fin n)} {segIndex : Option ℕ} {rtr : RingRtr n}
    {seq : ℕ} (h : rtr ∈ d.requests procId segIndex) (hseq : seq ∈ rtr.seqs) : d.myAru < seq := by
  unfold Daemon.requests at h
  split at h
  · rw [List.mem_singleton.mp h] at hseq
    obtain ⟨k, -, rfl⟩ := List.mem_range'.mp (List.mem_filter.mp hseq).1
    omega
  · cases h

/-- A daemon that remembers a token. -/
def Daemon.remembering (d : Daemon n β) (t : Token n) (setAru : Option ℕ) (tokenCounter : ℕ) :
    Daemon n β :=
  { d with setAru, aru := min d.lastToken.aru t.aru, tokenCounter, lastToken := t }

omit [NeZero n] in
theorem rememberToken_returns (hcount : d.tokenCounter < maxInt32) (next : Token n)
    (setAru : Option ℕ) :
    Returns (d.rememberToken next setAru) fun d' ↦ ∃ k, d' = d.remembering next setAru k := by
  have haru : (if d.lastToken.aru < next.aru then d.lastToken.aru else next.aru) =
      min d.lastToken.aru next.aru := by
    split <;> omega
  unfold Daemon.rememberToken
  rw [haru]
  dsimp only
  split
  · rw [if_neg (Nat.not_le.mpr hcount)]
    exact returns_ok.mpr ⟨_, rfl⟩
  · exact returns_ok.mpr ⟨0, rfl⟩

omit [NeZero n] in
/-- A daemon that takes more to be received everywhere. -/
theorem Local.remembering {next : Token n} {setAru : Option ℕ} {k : ℕ} (hd : Consistent log d)
    (hleft : d.aru ≤ d.lastToken.aru) (hnext : d.aru ≤ next.aru) :
    Consistent log (d.remembering next setAru k) := by
  refine ⟨{ hd.slots with }, { hd.handed with }, fun q hq hqs hle ↦ ?_, { hd.own with }⟩
  have h := hd.safe q hq hqs hle
  change q.seq ≤ min d.lastToken.aru next.aru
  omega

/-- What passing the token on leads to. -/
structure Passed (log : List (Packet n β)) (A : Aru.State (Fin n)) (d : Daemon n β) (t : Token n)
    (d' : Daemon n β) (tokens : List (Token n)) : Prop where
  my : d'.my = d.my
  consistent : Consistent log d'
  queue : d'.downQueue = d.downQueue ∧ d'.curElement = d.curElement
  discarded : d'.lastDiscarded = d.lastDiscarded
  messages : d'.messages = d.messages
  myAru_le : d.myAru ≤ d'.myAru
  highest : d'.highestSeq = d.highestSeq
  setAru : d'.setAru = A.marked d.my.id d'.myAru d.highestSeq
  aru : d'.aru = min (A.left d.my.id) (A.passed d.my.id d'.myAru)
  tokens : ∀ t' ∈ tokens, t' = d'.lastToken
  seq : d'.lastToken.seq = d.highestSeq
  tokenAru : d'.lastToken.aru = A.passed d.my.id d'.myAru
  last : d'.lastToken.aruLastId = if A.Writes d.my.id d'.myAru then some d.my.id else A.last
  arq : d'.lastToken.arq = if d.isLeader then (t.arq + 1) % 16 else t.arq
  requests : ∀ rtr ∈ d'.lastToken.rtr, ∀ seq ∈ rtr.seqs, d'.myAru < seq

/-- The token is passed on as the scheme says. -/
theorem passToken_returns (hd : Consistent log d) (hA : Shows A d t)
    (hleft : d.aru ≤ d.lastToken.aru) (haru : d.aru ≤ t.aru) (hmy : d.aru ≤ d.myAru)
    (hcount : d.tokenCounter < maxInt32) (a : Daemon.Answer n β) (numSent : ℕ) :
    Returns (d.passToken t a numSent) fun r ↦ Passed log A d t r.1 r.2 := by
  have hbase : Consistent log
      { d with lastNumRetrans := a.numRetrans, lastNumSent := numSent } :=
    ⟨{ hd.slots with }, { hd.handed with }, hd.safe, { hd.own with }⟩
  obtain ⟨m, hm, -, heq, hadv, -⟩ := advanceMyAru_spec hbase
  have hd₁ : Consistent log (Daemon.advanceMyAru
      { d with lastNumRetrans := a.numRetrans, lastNumSent := numSent }) := by
    rw [heq] at hadv ⊢
    exact hadv
  clear hadv hbase
  unfold Daemon.passToken
  dsimp only
  -- From here on the daemon has counted what it has.
  generalize Daemon.advanceMyAru
    { d with lastNumRetrans := a.numRetrans, lastNumSent := numSent } = d₁ at heq hd₁ ⊢
  have hmy₁ : d₁.my = d.my := by rw [heq]
  have hmyAru : d.myAru ≤ d₁.myAru := by rw [heq]; exact hm
  have hhigh : d₁.highestSeq = d.highestSeq := by rw [heq]
  have hold : d₁.aru = d.aru := by rw [heq]
  have hlast : d₁.lastToken = d.lastToken := by rw [heq]
  have hset : A.mark d₁.my.id = d₁.setAru := by rw [hmy₁, hA.mark, heq]
  have hleader : d₁.isLeader = d.isLeader := by rw [Daemon.isLeader, hmy₁, Daemon.isLeader]
  obtain ⟨hpassed, hwriter, hmarked⟩ := updateAru_eq hset hA.aru hA.last hA.seq
  rw [hmy₁] at hpassed hwriter hmarked
  have hnext : d.aru ≤ A.passed d.my.id d₁.myAru :=
    Aru.State.le_passed (hA.aru ▸ haru) (Nat.le_trans hmy hmyAru)
  refine (rememberToken_returns (by rw [heq]; exact hcount) _ _).bind ?_
  rintro - ⟨k, rfl⟩
  refine returns_pure.mpr ?_
  constructor
  case my => exact hmy₁
  case consistent =>
      refine hd₁.remembering (by rw [hold, hlast]; exact hleft) ?_
      rw [hold]
      exact hnext.trans_eq hpassed.symm
  case queue => exact ⟨by rw [heq]; rfl, by rw [heq]; rfl⟩
  case discarded => rw [heq]; rfl
  case messages => rw [heq]; rfl
  case myAru_le => exact hmyAru
  case highest => exact hhigh
  case setAru =>
      rw [← hhigh]
      exact hmarked
  case aru =>
      rw [hA.left, ← hlast]
      exact congrArg (min d₁.lastToken.aru) hpassed
  case tokens =>
      intro t' ht'
      dsimp only at ht'
      split at ht'
      · cases ht'
      · exact (List.mem_replicate.mp ht').2
  case seq => exact hhigh
  case tokenAru => exact hpassed
  case last => exact hwriter
  case arq =>
      rw [← hleader]
      rfl
  case requests => exact fun rtr hrtr seq hseq ↦ lt_of_mem_requests hrtr hseq

omit [NeZero n] in
/-- Sending is of no concern to the scheme. -/
theorem Sends.shows {queue : QueueScat n β} {s : Daemon.Sending n β}
    (hs : Sends log submitted d queue s) (hA : Shows A d t) : Shows A s.daemon t := by
  have hmy : s.daemon.my = d.my := Daemon.eq_of_resting Daemon.my (fun _ ↦ rfl) hs.resting
  have hlast : s.daemon.lastToken = d.lastToken :=
    Daemon.eq_of_resting Daemon.lastToken (fun _ ↦ rfl) hs.resting
  have hset : s.daemon.setAru = d.setAru :=
    Daemon.eq_of_resting Daemon.setAru (fun _ ↦ rfl) hs.resting
  exact ⟨by rw [hmy, hset, hA.mark], by rw [hmy, hlast, hA.left], hA.aru, hA.last, hA.seq⟩

omit [NeZero n] in
/-- What a visit ends with: what is received everywhere is given up, and what is due is delivered,
before the rest of the program. -/
theorem deliver_returns {γ : Type _} {f : Daemon n β → Except Alarm γ} {P : γ → Prop}
    (hw : WellFormed log) (hd : Consistent log d) (hle : d.aru ≤ d.myAru)
    (hlow : d.lastDiscarded ≤ d.aru) (numSent : ℕ)
    (h : ∀ d' : Daemon n β, d'.control = d.control → d'.lastDiscarded = d.aru →
      d.messages <+: d'.messages → Consistent log d' → Returns (f d') P) :
    Returns (do
      let d ← d.discardPackets
      let d ← d.deliverAgreedPackets
      let d ← d.deliverReliablePackets (d.highestSeq - numSent + 1) numSent
      f d) P := by
  refine (discardPackets_returns hw hd hle).bind fun d₁ ⟨hc₁, hdisc₁, hmore₁, h₁⟩ ↦ ?_
  refine (deliverAgreedPackets_returns hw h₁).bind fun d₂ h₂ ↦ ?_
  refine (deliverReliablePackets_returns hw h₂.consistent _ _).bind fun d₃ h₃ ↦ ?_
  refine h d₃ (h₃.control.trans (h₂.control.trans hc₁)) ?_
    (hmore₁.trans (h₂.messages.trans h₃.messages)) h₃.consistent
  rw [h₃.lastDiscarded, h₂.lastDiscarded, hdisc₁, Nat.max_eq_right hlow]

/-- What the parts of a visit lead to: retransmissions and new packets, the token that is passed
on, and delivery. -/
theorem Passed.visited {results : List Bool} {ans : Daemon.Answer n β} {s : Daemon.Sending n β}
    {d₁ d₂ : Daemon n β} {tokens : List (Token n)} (hans : Answers log results ans)
    (hs : Sends log submitted d ans.queue s) (hflat : s.packets.flatten = s.created)
    (hfew : s.created = [] ∨ (log ++ s.created).length ≤ d.aru + maxSeqGap + maxNew)
    (hfits : (log ++ s.created).length < maxInt32)
    (hpass : Passed (log ++ s.created) A s.daemon t d₁ tokens) (hc : d₂.control = d₁.control)
    (hdisc : d₂.lastDiscarded = d₁.aru) (hmessages : d₁.messages <+: d₂.messages)
    (hconsistent : Consistent (log ++ s.created) d₂) :
    Visited log submitted A d t d₂ { packets := ans.packets ++ s.packets, tokens } s.created := by
  have hmy : s.daemon.my = d.my := Daemon.eq_of_resting Daemon.my (fun _ ↦ rfl) hs.resting
  have hmyAru : s.daemon.myAru = d.myAru :=
    Daemon.eq_of_resting Daemon.myAru (fun _ ↦ rfl) hs.resting
  have hmy₂ : d₂.my = d₁.my := Daemon.eq_of_control Daemon.my (fun _ ↦ rfl) hc
  have hmyAru₂ : d₂.myAru = d₁.myAru := Daemon.eq_of_control Daemon.myAru (fun _ ↦ rfl) hc
  have haru₂ : d₂.aru = d₁.aru := Daemon.eq_of_control Daemon.aru (fun _ ↦ rfl) hc
  have hlast₂ : d₂.lastToken = d₁.lastToken :=
    Daemon.eq_of_control Daemon.lastToken (fun _ ↦ rfl) hc
  constructor
  case my => rw [hmy₂, hpass.my, hmy]
  case wellFormed => exact hs.wellFormed
  case consistent => exact hconsistent
  case sender =>
      have hqueue : d₂.downQueue = d₁.downQueue :=
        Daemon.eq_of_control Daemon.downQueue (fun _ ↦ rfl) hc
      have hcur : d₂.curElement = d₁.curElement :=
        Daemon.eq_of_control Daemon.curElement (fun _ ↦ rfl) hc
      exact hs.sender.congr (hmy₂.trans hpass.my) (hqueue.trans hpass.queue.1)
        (hcur.trans hpass.queue.2)
  case mine => exact hs.mine
  case sent =>
      intro ps hps p hp
      rcases List.mem_append.mp hps with hps | hps
      · exact List.mem_append_left _ (hans.packets p (List.mem_flatten.mpr ⟨ps, hps, hp⟩))
      · exact List.mem_append_right _ (hflat ▸ List.mem_flatten.mpr ⟨ps, hps, hp⟩)
  case few => exact hfew
  case fits => exact hfits
  case messages =>
      have hkept : d₁.messages = d.messages := hpass.messages.trans
        (Daemon.eq_of_resting Daemon.messages (fun _ ↦ rfl) hs.resting)
      exact hkept ▸ hmessages
  case myAru_le => exact hmyAru₂ ▸ hmyAru ▸ hpass.myAru_le
  case highest =>
      have hhigh : d₂.highestSeq = d₁.highestSeq :=
        Daemon.eq_of_control Daemon.highestSeq (fun _ ↦ rfl) hc
      rw [hhigh, hpass.highest, hs.highest]
  case setAru =>
      have hset : d₂.setAru = d₁.setAru :=
        Daemon.eq_of_control Daemon.setAru (fun _ ↦ rfl) hc
      rw [hset, hpass.setAru, hmy, hmyAru₂, hs.highest]
  case aru => rw [haru₂, hpass.aru, hmy, hmyAru₂]
  case discarded => rw [hdisc, haru₂]
  case tokens => exact hlast₂ ▸ hpass.tokens
  case seq => rw [hlast₂, hpass.seq, hs.highest]
  case tokenAru => rw [hlast₂, hpass.tokenAru, hmy, hmyAru₂]
  case last => rw [hlast₂, hpass.last, hmy, hmyAru₂]
  case arq => rw [hlast₂, hpass.arq, Daemon.isLeader, hmy, Daemon.isLeader]
  case requests =>
      rw [hlast₂, hmyAru₂]
      exact hpass.requests

/-- The work of a visit, for a daemon that knows of all packets. -/
theorem workToken_returns [Payload β] {results : List Bool} (h : Ready log submitted A d t)
    (hhigh : d.highestSeq = log.length) (hres : results.count false ≤ maxFailed) :
    Returns (d.workToken t results) fun r ↦ Visited log submitted A d t r.1 r.2.1 r.2.2 := by
  have hwindow := h.window
  have hroom := h.room
  have hdisc := h.discarded
  have hlow := h.consistent.slots.discarded_le
  have hale := h.consistent.slots.delivered_le
  have hmyle := h.consistent.slots.myAru_le
  have hbound : maxSeqGap + maxNew ≤ maxPacketsInStruct := by decide
  have hgap₀ : 0 < maxSeqGap := by decide
  refine (answerRetrans_returns h.consistent.slots h.requests).bind fun ans ⟨hans, hempty⟩ ↦ ?_
  obtain ⟨numAllowed, heq, hallowed, hgap⟩ :=
    fcAllowed_returns (d := d) (by omega) t.flowControl
  have hfail := hans.failures.trans hres
  have hnew : maxPacked * (numAllowed + ans.queue.failures + 1) ≤ maxNew :=
    Nat.mul_le_mul_left _ (by omega)
  rw [heq]
  dsimp only
  refine (sendNewPackets_returns h.wellFormed h.consistent hhigh h.sender hans.packed hempty
    (hgap.imp_right fun _ ↦ by omega) (Or.inr (by omega))).bind ?_
  intro s ⟨hs, hflat, hlen, hnone, _⟩
  have haru : s.daemon.aru = d.aru := Daemon.eq_of_resting Daemon.aru (fun _ ↦ rfl) hs.resting
  have hmyAru : s.daemon.myAru = d.myAru :=
    Daemon.eq_of_resting Daemon.myAru (fun _ ↦ rfl) hs.resting
  have hlast : s.daemon.lastToken = d.lastToken :=
    Daemon.eq_of_resting Daemon.lastToken (fun _ ↦ rfl) hs.resting
  have hcount : s.daemon.tokenCounter = d.tokenCounter :=
    Daemon.eq_of_resting Daemon.tokenCounter (fun _ ↦ rfl) hs.resting
  have hdisc' : s.daemon.lastDiscarded = d.lastDiscarded :=
    Daemon.eq_of_resting Daemon.lastDiscarded (fun _ ↦ rfl) hs.resting
  have hshows := hs.shows h.shows
  have hleft : s.daemon.aru ≤ s.daemon.lastToken.aru := by
    rw [haru, hlast]
    exact h.stable_left
  have hstable : s.daemon.aru ≤ t.aru := haru.trans_le h.stable_aru
  refine (passToken_returns hs.consistent hshows hleft hstable (by omega)
    (hcount.trans_lt h.counter) ans s.numSent).bind fun ⟨d₁, tokens⟩ hpass ↦ ?_
  dsimp only at hpass ⊢
  have harule := hpass.aru
  have hle : d₁.aru ≤ d₁.myAru := by
    have hpassed := A.passed_le s.daemon.my.id d₁.myAru
    omega
  have hmono : d₁.lastDiscarded ≤ d₁.aru := by
    have hpassed : s.daemon.aru ≤ A.passed s.daemon.my.id d₁.myAru := by
      have hmyle := hpass.myAru_le
      exact Aru.State.le_passed (hshows.aru ▸ hstable) (by omega)
    have hdisc₁ := hpass.discarded
    rw [harule, hshows.left]
    omega
  refine deliver_returns hs.wellFormed hpass.consistent hle hmono s.numSent ?_
  intro d₂ hc hdisc₂ hmessages hconsistent
  refine returns_pure.mpr (hpass.visited hans hs hflat ?_ ?_ hc hdisc₂ hmessages hconsistent)
  · refine hgap.imp (fun hzero ↦ hnone hzero) fun hle ↦ ?_
    rw [List.length_append]
    omega
  · rw [List.length_append]
    omega

/-- **`Prot_handle_token`** raises no alarm with a token that is to be handled. -/
theorem handleToken_returns [Payload β] {results : List Bool} (h : Ready log submitted A d t)
    (hres : results.count false ≤ maxFailed) :
    Returns (d.handleToken t results) fun r ↦ Visited log submitted A d t r.1 r.2.1 r.2.2 := by
  have hhigh := h.consistent.slots.highest_le
  have hwindow := h.window
  have hdisc := h.discarded
  have hbound : maxSeqGap + maxNew ≤ maxPacketsInStruct := by decide
  have hmax : max d.highestSeq t.seq = log.length := by rw [h.seq]; omega
  have hd : Consistent log { d with highestSeq := log.length } :=
    h.consistent.grow hhigh (Nat.le_refl _) (by omega)
  unfold Daemon.handleToken
  rw [hmax]
  refine (workToken_returns (d := { d with highestSeq := log.length }) { h with
    consistent := hd
    sender := h.sender.congr rfl rfl rfl
    shows := { h.shows with } } rfl hres).mono fun r hr ↦ { hr with }

end Spread
