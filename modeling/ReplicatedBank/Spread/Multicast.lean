import ReplicatedBank.Distributed.Fifo
import ReplicatedBank.Distributed.FirstCopies
import ReplicatedBank.Spread.Guarantees

/-!
# Processes over the daemons

Processes in place of the sessions, one at each daemon of a stable membership.  What a process
multicasts is handed to its daemon as messages, and a process is handed, in order and when it
gets to it, what its daemon has for the sessions.  What the daemons do to sort messages by group
and by client, and the connections to the clients, are not modelled: they are taken to hand on
every message, in the order they get them.

The daemons together are then the multicast of a fixed group that delivers first in, first out
(`Simulates`); and what two processes have been handed is the beginning of one sequence.
-/

namespace Spread

open Distributed

variable {n : ℕ} {σ μ κ β : Type*}

/-- How a multicast is made into a message for a daemon, and recognised when it is delivered.
No multicast is a reliable message of one packet. -/
structure Codec (μ β : Type*) where
  encode : μ → DownLink β
  decode : PacketType × List β → Option μ
  decode_encode : ∀ m, decode (encode m).content = some m
  ordered : ∀ m, (encode m).isSingle = false

/-- The daemons with a process at each. -/
structure Multicast (n : ℕ) (σ β : Type*) where
  ring : Ring n β
  /-- The processes. -/
  node : Fin n → σ
  /-- How much of what its daemon has for it each process has been handed. -/
  read : Fin n → ℕ

/-- What can happen next. -/
inductive Multicast.Event (n : ℕ) (κ β : Type*) where
  /-- A local action at a process. -/
  | act (i : Fin n) (k : κ)
  /-- A process is handed the next message. -/
  | read (i : Fin n)
  /-- Something happens among the daemons. -/
  | network (e : Spread.Event n β)

/-- Whether a message is handed to a daemon. -/
def Event.isMessage : Event n β → Bool
  | .message _ _ => true
  | _ => false

/-- The messages for some multicasts. -/
def multicast (C : Codec μ β) (i : Fin n) (ms : List μ) : List (Event n β) :=
  ms.map fun m ↦ .message i (C.encode m)

variable [NeZero n] [Payload β]

/-- A process takes on its new state and multicasts. -/
def Multicast.commit (C : Codec μ β) (s : Multicast n σ β) (i : Fin n) (next : σ × List μ) :
    Option (Multicast n σ β) :=
  (Spread.ring.run s.ring (multicast C i next.2)).map fun r ↦
    { s with ring := r, node := Function.update s.node i next.1 }

/-- Automata over the daemons. -/
def overDaemons (A : Automaton (Fin n) σ μ κ) (C : Codec μ β) :
    Machine (Multicast n σ β) (Multicast.Event n κ β) where
  step s
    | .act i k => s.commit C i (A.act (s.node i) k)
    | .read i => (s.ring.daemon i).toOption.bind fun d ↦ d.messages[s.read i]?.bind fun m ↦
        (C.decode m.content).bind fun m' ↦
          { s with read := Function.update s.read i (s.read i + 1) }.commit C i
            (A.receive (s.node i) m')
    | .network e =>
        if e.isMessage then none
        else (ring.step s.ring e).map fun r ↦ { s with ring := r }

/-- The processes before anything has happened. -/
def Multicast.start (node : Fin n → σ) (r : Ring n β) : Multicast n σ β := ⟨r, node, fun _ ↦ 0⟩

/-- The conditions on what happens among the daemons. -/
def Multicast.Orderly (s : Multicast n σ β) : Multicast.Event n κ β → Prop
  | .network e => Spread.Orderly s.ring e
  | _ => True

/-! ## Submitting -/

section

variable {C : Codec μ β} {r r' : Ring n β} {i : Fin n} {ms : List μ} {e : Event n β}

theorem submitted_arrive (d : Daemon n β) (t : Token n) (results : List Bool) :
    (r.arrive i d t results).submitted = r.submitted := by
  unfold Ring.arrive
  split <;> rfl

/-- Nothing but messages is submitted. -/
theorem submitted_of_step (h : ring.step r e = some r') (he : e.isMessage = false) :
    r'.submitted = r.submitted := by
  cases e with
  | message i m => cases he
  | packets i k =>
      obtain ⟨d, -, h⟩ := Option.bind_eq_some_iff.mp h
      obtain ⟨ps, -, rfl⟩ := Option.map_eq_some_iff.mp h
      rfl
  | token k results =>
      obtain ⟨p, -, h⟩ := Option.bind_eq_some_iff.mp h
      obtain ⟨d, -, rfl⟩ := Option.map_eq_some_iff.mp h
      exact submitted_arrive d p.2.2 results
  | hurry =>
      change (if r.hurried then (r.daemon 0).toOption.map fun d ↦ r.emit 0 d.handleHurry
        else none) = some r' at h
      split at h
      · obtain ⟨d, -, rfl⟩ := Option.map_eq_some_iff.mp h
        rfl
      · cases h
  | timeout =>
      obtain ⟨d, -, rfl⟩ := Option.map_eq_some_iff.mp h
      rfl

theorem submitted_of_run (h : ring.run r (multicast C i ms) = some r') :
    r'.submitted = Function.update r.submitted i (r.submitted i ++ ms.map C.encode) := by
  induction ms generalizing r with
  | nil =>
      cases h
      simp
  | cons m ms ih =>
      obtain ⟨t, ht, h⟩ := Machine.run_cons.mp h
      obtain ⟨d, -, rfl⟩ := Option.map_eq_some_iff.mp ht
      rw [ih h]
      simp

omit [Payload β] in
theorem orderly_of_isMessage (h : e.isMessage) : Spread.Orderly r e := by
  cases e with
  | message i m => exact ⟨trivial, trivial, trivial⟩
  | _ => cases h

/-- Messages may be handed to a daemon at any time. -/
theorem along_multicast (r : Ring n β) (ms : List μ) :
    ring.Along Spread.Orderly r (multicast C i ms) := by
  have h : ∀ e ∈ multicast C i ms, Event.isMessage e = true := by
    intro e he
    obtain ⟨m, -, rfl⟩ := List.mem_map.mp he
    rfl
  exact (Machine.along_of_forall_mem (E := fun e ↦ Event.isMessage e = true) h r).mono
    fun _ _ ↦ orderly_of_isMessage

end

/-! ## The multicast of a fixed group -/

/-- What a process is handed, with the daemon it comes from. -/
def MessageLink.received (m : MessageLink n β) : Fin n × PacketType × List β :=
  (m.procId, m.content)

/-- A multicast with its sender, as it is handed to a process. -/
def Codec.shown (C : Codec μ β) (p : Fin n × μ) : Fin n × PacketType × List β :=
  (p.1, (C.encode p.2).content)

omit [NeZero n] [Payload β] in
theorem Codec.shown_injective (C : Codec μ β) :
    Function.Injective (C.shown : Fin n × μ → Fin n × PacketType × List β) := by
  rintro ⟨i, m⟩ ⟨j, m'⟩ h
  obtain ⟨rfl, hm⟩ := Prod.mk.inj h
  have hdecode := congrArg C.decode hm
  rw [C.decode_encode, C.decode_encode, Option.some.injEq] at hdecode
  exact congrArg (Prod.mk i) hdecode

/-- The daemons with their processes, and the abstract group. -/
structure Simulates (C : Codec μ β) (s : Multicast n σ β) (f : Fifo.State (Fin n) σ μ) : Prop where
  safe : Safe s.ring
  node : f.node = s.node
  submitted : ∀ i, s.ring.submitted i = (f.sent i).map C.encode
  read_le : ∀ i d, s.ring.daemon i = .ok d → s.read i ≤ d.messages.length
  delivered : ∀ i d, s.ring.daemon i = .ok d →
    (d.messages.take (s.read i)).map MessageLink.received = (f.delivered i).map C.shown

variable {C : Codec μ β} {s : Multicast n σ β} {f : Fifo.State (Fin n) σ μ} {d : Daemon n β}
variable {i : Fin n}

omit [Payload β] in
/-- A message that was multicast is in order. -/
theorem Simulates.ordered (h : Simulates C s f) {m : MessageLink n β}
    (hm : m ∈ (assemble s.ring.log).messages) : m.isSingle = false := by
  obtain ⟨ds, holds, hinv⟩ := h.safe
  have hsent := (hinv.sender m.procId).sent
  rw [hinv.my_id, h.submitted, List.map_map] at hsent
  have hmem : m.content ∈ (f.sent m.procId).map (DownLink.content ∘ C.encode) := by
    rw [← hsent]
    exact List.mem_append_left _ (List.mem_map_of_mem (List.mem_filter.mpr ⟨hm, by simp⟩))
  obtain ⟨m', -, hcontent⟩ := List.mem_map.mp hmem
  obtain ⟨htype, helements⟩ := Prod.mk.inj hcontent
  have hordered := C.ordered m'
  rwa [DownLink.isSingle, htype, helements] at hordered

omit [Payload β] in
/-- All that a daemon has for its process is in order. -/
theorem Simulates.messages_isPrefix (h : Simulates C s f) (hd : s.ring.daemon i = .ok d) :
    d.messages <+: (assemble s.ring.log).messages := by
  obtain ⟨ds, holds, hinv⟩ := h.safe
  obtain rfl := hinv.eq_of_ok hd
  have hh := (hinv.consistent i).handed
  have hinit := hh.ordered_isPrefix
  have hall : ∀ l ⊆ (assemble s.ring.log).messages, (l.filter fun m ↦ !m.isSingle) = l :=
    fun l hl ↦ List.filter_eq_self.mpr fun m hm ↦ by rw [h.ordered (hl hm), Bool.not_false]
  rwa [hall _ hh.subset, hall _ (List.Subset.refl _)] at hinit

omit [NeZero n] [Payload β] in
/-- What belongs to one sender. -/
theorem filterMap_sender {α : Type*} (l : List (Fin n × α)) (j : Fin n) :
    (l.filterMap fun p ↦ if p.1 = j then some p.2 else none) =
      (l.filter fun p ↦ p.1 = j).map Prod.snd := by
  induction l with
  | nil => rfl
  | cons p l ih => by_cases hp : p.1 = j <;> simp [hp, ih]

omit [Payload β] in
/-- What a process has been handed of a sender's multicasts. -/
theorem Simulates.received (h : Simulates C s f) (hd : s.ring.daemon i = .ok d) (j : Fin n) :
    ((d.messages.take (s.read i)).filter fun m ↦ m.procId = j).map MessageLink.content =
      (f.received i j).map fun m ↦ (C.encode m).content := by
  have hfilter := congrArg (fun l ↦ (l.filter fun p ↦ p.1 = j).map Prod.snd)
    (h.delivered i d hd)
  simp only [List.filter_map, List.map_map] at hfilter
  rw [Fifo.State.received, filterMap_sender, List.map_map]
  exact hfilter

omit [Payload β] in
/-- **The next message** that a daemon has for its process is the next multicast of its sender. -/
theorem Simulates.next (h : Simulates C s f) (hd : s.ring.daemon i = .ok d) {m : MessageLink n β}
    (hm : d.messages[s.read i]? = some m) :
    ∃ m', f.next? i m.procId = some m' ∧ (C.encode m').content = m.content := by
  obtain ⟨ds, holds, hinv⟩ := h.safe
  have htake : d.messages.take (s.read i + 1) = d.messages.take (s.read i) ++ [m] := by
    rw [List.take_add_one, hm, Option.toList_some]
  have hinit := ((d.messages.take_prefix (s.read i + 1)).trans (h.messages_isPrefix hd)).filter
    fun m' ↦ m'.procId = m.procId
  have hsent := (hinv.sender m.procId).sent
  rw [hinv.my_id, h.submitted, List.map_map] at hsent
  have hall := (hinit.map MessageLink.content).trans ⟨_, hsent⟩
  rw [htake, List.filter_append, List.map_append, h.received hd] at hall
  obtain ⟨t, ht⟩ := hall
  have hget := congrArg (fun l ↦ l[(f.received i m.procId).length]?) ht
  simp only [List.filter_cons, decide_true, if_true, List.filter_nil, List.map_cons, List.map_nil,
    List.append_assoc] at hget
  rw [List.getElem?_append_right (by simp)] at hget
  simp only [List.length_map, Nat.sub_self, List.singleton_append, List.getElem?_cons_zero,
    List.getElem?_map] at hget
  obtain ⟨m', hm', hcontent⟩ := Option.map_eq_some_iff.mp hget.symm
  exact ⟨m', hm', hcontent⟩

/-! ## The simulation -/

variable {A : Automaton (Fin n) σ μ κ} {s' : Multicast n σ β} {e : Multicast.Event n κ β}

/-- What a process has been handed is not affected by what happens among the daemons. -/
theorem Simulates.kept (h : Simulates C s f) {es : List (Event n β)} {r : Ring n β}
    (hc : ring.Along Spread.Orderly s.ring es) (hr : ring.run s.ring es = some r)
    (hd : r.daemon i = .ok d) : s.read i ≤ d.messages.length ∧
      (d.messages.take (s.read i)).map MessageLink.received = (f.delivered i).map C.shown := by
  obtain ⟨ds, holds, hinv⟩ := h.safe
  have hread := h.read_le i _ (hinv.daemon i)
  obtain ⟨t, ht⟩ := h.safe.messages_isPrefix hc hr (hinv.daemon i) hd
  rw [← ht, List.take_append_of_le_length hread, List.length_append]
  exact ⟨Nat.le_trans hread (Nat.le_add_right _ _), h.delivered i _ (hinv.daemon i)⟩

/-- Something happens among the daemons. -/
theorem Simulates.network (h : Simulates C s f) {e : Event n β} (he : e.isMessage = false)
    (hc : Spread.Orderly s.ring e) {r : Ring n β} (hr : ring.step s.ring e = some r) :
    Simulates C { s with ring := r } f := by
  have hrun : ring.run s.ring [e] = some r := Machine.run_cons.mpr ⟨r, hr, rfl⟩
  have hc' : ring.Along Spread.Orderly s.ring [e] := ⟨hc, fun _ _ ↦ trivial⟩
  exact ⟨h.safe.run hc' hrun, h.node, fun j ↦ submitted_of_step hr he ▸ h.submitted j,
    fun _ _ hd ↦ (h.kept hc' hrun hd).1, fun _ _ hd ↦ (h.kept hc' hrun hd).2⟩

/-- A process takes on its new state and multicasts. -/
theorem Simulates.commit (h : Simulates C s f) {next : σ × List μ}
    (hs : s.commit C i next = some s') : Simulates C s' (f.commit i next) := by
  obtain ⟨r, hr, rfl⟩ := Option.map_eq_some_iff.mp hs
  have hc : ring.Along Spread.Orderly s.ring (multicast C i next.2) := along_multicast _ _
  refine ⟨h.safe.run hc hr, ?_, fun j ↦ ?_, fun _ _ hd ↦ (h.kept hc hr hd).1,
    fun _ _ hd ↦ (h.kept hc hr hd).2⟩
  · exact congrArg (fun node ↦ Function.update node i next.1) h.node
  · change r.submitted j = _
    rw [submitted_of_run hr]
    by_cases hj : j = i
    · subst hj
      rw [Function.update_self, Fifo.commit_sent_self, List.map_append, h.submitted]
    · rw [Function.update_of_ne hj, Fifo.commit_sent_of_ne hj, h.submitted]

omit [Payload β] in
/-- A process is handed the next message. -/
theorem Simulates.record (h : Simulates C s f) (hd : s.ring.daemon i = .ok d)
    {m : MessageLink n β} (hm : d.messages[s.read i]? = some m) {m' : μ}
    (hcontent : (C.encode m').content = m.content) :
    Simulates C { s with read := Function.update s.read i (s.read i + 1) }
      (f.record i m.procId m') := by
  refine ⟨h.safe, h.node, h.submitted, fun j dj hj ↦ ?_, fun j dj hj ↦ ?_⟩
  · by_cases hij : j = i
    · subst hij
      obtain rfl := Except.ok.inj (hd.symm.trans hj)
      change Function.update s.read j (s.read j + 1) j ≤ _
      rw [Function.update_self]
      exact (List.getElem?_eq_some_iff.mp hm).1
    · change Function.update s.read i (s.read i + 1) j ≤ _
      rw [Function.update_of_ne hij]
      exact h.read_le j dj hj
  · change (dj.messages.take (Function.update s.read i (s.read i + 1) j)).map _ =
      (Function.update f.delivered i (f.delivered i ++ [(m.procId, m')]) j).map _
    by_cases hij : j = i
    · subst hij
      obtain rfl := Except.ok.inj (hd.symm.trans hj)
      rw [Function.update_self, Function.update_self, List.take_add_one, hm, Option.toList_some,
        List.map_append, List.map_append, h.delivered j d hd]
      simp [MessageLink.received, Codec.shown, hcontent]
    · rw [Function.update_of_ne hij, Function.update_of_ne hij]
      exact h.delivered j dj hj

/-- A step over the daemons is a step of the group, or none. -/
theorem Simulates.step (h : Simulates C s f) (hc : s.Orderly e)
    (hs : (overDaemons A C).step s e = some s') :
    ∃ fs f', (Fifo.machine A).run f fs = some f' ∧
      (∀ g ∈ fs, ∀ i k, g = .act i k → e = .act i k) ∧ Simulates C s' f' := by
  cases e with
  | act i k =>
      have hs : s.commit C i (A.act (f.node i) k) = some s' := by rwa [h.node]
      refine ⟨[.act i k], _, Machine.run_cons.mpr ⟨_, rfl, rfl⟩, ?_, h.commit hs⟩
      intro g hg j k' hgk
      rw [List.mem_singleton.mp hg, Fifo.Event.act.injEq] at hgk
      rw [hgk.1, hgk.2]
  | read i =>
      obtain ⟨d, hd, hs⟩ := Option.bind_eq_some_iff.mp hs
      obtain ⟨m, hm, hs⟩ := Option.bind_eq_some_iff.mp hs
      obtain ⟨m', hm', hs⟩ := Option.bind_eq_some_iff.mp hs
      have hd := eq_ok_of_toOption hd
      obtain ⟨m'', hnext, hcontent⟩ := h.next hd hm
      obtain rfl : m'' = m' := by
        rw [← hcontent, C.decode_encode] at hm'
        exact Option.some.inj hm'
      have hs : Multicast.commit C { s with read := Function.update s.read i (s.read i + 1) } i
          (A.receive (f.node i) m'') = some s' := by rwa [h.node]
      refine ⟨[.deliver i m.procId], _, Machine.run_cons.mpr
        ⟨_, Fifo.step_deliver.mpr ⟨m'', hnext, rfl⟩, rfl⟩, ?_,
        (h.record hd hm hcontent).commit hs⟩
      intro g hg j k hgk
      rw [List.mem_singleton.mp hg] at hgk
      cases hgk
  | network e =>
      change (if e.isMessage then none else (ring.step s.ring e).map _) = some s' at hs
      split at hs
      · cases hs
      · next he =>
          obtain ⟨r, hr, rfl⟩ := Option.map_eq_some_iff.mp hs
          exact ⟨[], f, rfl, by simp, h.network (by simpa using he) hc hr⟩

/-! ## Runs -/

variable {es : List (Multicast.Event n κ β)} {node : Fin n → σ} {segIndex : Fin n → ℕ}
variable {visits : ℕ} {first : Token n}

omit [Payload β] in
theorem Simulates.start (C : Codec μ β) (node : Fin n → σ) (segIndex : Fin n → ℕ) (visits : ℕ)
    (first : Token n) :
    Simulates C (.start node (Ring.start segIndex visits first)) (Fifo.start node) where
  safe := ⟨_, _, Inv.start segIndex visits first⟩
  node := rfl
  submitted _ := rfl
  read_le _ _ _ := Nat.zero_le _
  delivered _ _ _ := rfl

/-- The group that the processes of a run form, with the actions of the run. -/
theorem exists_simulates
    (hc : (overDaemons A C).Along Multicast.Orderly
      (.start node (Ring.start segIndex visits first)) es)
    (hr : (overDaemons A C).run (.start node (Ring.start segIndex visits first)) es = some s) :
    ∃ fs f, (Fifo.machine A).run (Fifo.start node) fs = some f ∧
      (∀ g ∈ fs, ∀ i k, g = .act i k → .act i k ∈ es) ∧ Simulates C s f := by
  have hmem : (overDaemons A C).Along (fun s e ↦ s.Orderly e ∧ e ∈ es)
      (.start node (Ring.start segIndex visits first)) es :=
    Machine.along_and.mpr ⟨hc, Machine.along_of_forall_mem (fun _ ↦ id) _⟩
  refine Machine.run_simulation (R := Simulates C) (fun s e s' f h hc hs ↦ ?_)
    (Simulates.start C node segIndex visits first) hmem hr
  obtain ⟨fs, f', hfs, hact, h'⟩ := h.step hc.1 hs
  exact ⟨fs, f', hfs, fun g hg i k hgk ↦ hact g hg i k hgk ▸ hc.2, h'⟩

omit [Payload β] in
/-- What two processes have been handed is the beginning of one sequence. -/
theorem Simulates.delivered_comparable (h : Simulates C s f) (r r' : Fin n) :
    f.delivered r <+: f.delivered r' ∨ f.delivered r' <+: f.delivered r := by
  obtain ⟨ds, holds, hinv⟩ := h.safe
  have hinit : ∀ i, (f.delivered i).map C.shown <+:
      (assemble s.ring.log).messages.map MessageLink.received := fun i ↦ by
    rw [← h.delivered i _ (hinv.daemon i)]
    exact ((List.take_prefix _ _).trans (h.messages_isPrefix (hinv.daemon i))).map _
  have hinj : ∀ {l l' : List (Fin n × μ)}, l.map C.shown <+: l'.map C.shown → l <+: l' :=
    fun hl ↦ isPrefix_of_map_isPrefix (fun _ _ _ _ heq ↦ C.shown_injective heq) hl
  exact (List.prefix_or_prefix_of_prefix (hinit r) (hinit r')).imp hinj hinj

omit [Payload β] in
/-- Processes that have been handed equally much have been handed the same. -/
theorem Simulates.delivered_eq (h : Simulates C s f) {r r' : Fin n} (hread : s.read r = s.read r') :
    f.delivered r = f.delivered r' := by
  obtain ⟨ds, holds, hinv⟩ := h.safe
  have hlen : ∀ i, (f.delivered i).length = s.read i := fun i ↦ by
    have hmap := congrArg List.length (h.delivered i _ (hinv.daemon i))
    rw [List.length_map, List.length_map, List.length_take_of_le (h.read_le i _ (hinv.daemon i))]
      at hmap
    exact hmap.symm
  rcases h.delivered_comparable r r' with hp | hp
  · exact hp.eq_of_length (by rw [hlen, hlen, hread])
  · exact (hp.eq_of_length (by rw [hlen, hlen, hread])).symm

/-! ## The first round -/

/-- The conditions on what happens among the daemons, in which one visit alone is asked to raise no
number that another daemon keeps down. -/
def Multicast.Settling (visits : ℕ) (first : Token n) (s : Multicast n σ β) :
    Multicast.Event n κ β → Prop
  | .network e => Spread.Settling visits first s.ring e
  | _ => True

instance (s : Multicast n σ β) : ∀ e : Multicast.Event n κ β,
    Decidable (Multicast.Settling visits first s e)
  | .network e => inferInstanceAs (Decidable (Spread.Settling visits first s.ring e))
  | .act _ _ | .read _ => .isTrue trivial

theorem SettlesSome.commit (h : SettlesSome visits first s.ring) {next : σ × List μ}
    (hs : s.commit C i next = some s') : SettlesSome visits first s'.ring := by
  obtain ⟨r, hr, rfl⟩ := Option.map_eq_some_iff.mp hs
  refine Machine.run_invariant (fun _ _ _ h hc hs ↦ SettlesSome.step h hc hs) h ?_ hr
  exact (along_multicast _ _).mono fun _ _ hc ↦ ⟨hc.fresh, hc.fits, fun _ _ ↦ hc.raisesAlone⟩

theorem SettlesSome.overDaemons (h : SettlesSome visits first s.ring)
    (hc : Multicast.Settling visits first s e) (hs : (overDaemons A C).step s e = some s') :
    SettlesSome visits first s'.ring := by
  cases e with
  | act i k => exact h.commit hs
  | read i =>
      obtain ⟨d, -, hs⟩ := Option.bind_eq_some_iff.mp hs
      obtain ⟨m, -, hs⟩ := Option.bind_eq_some_iff.mp hs
      obtain ⟨m', -, hs⟩ := Option.bind_eq_some_iff.mp hs
      exact SettlesSome.commit
        (s := { s with read := Function.update s.read i (s.read i + 1) }) h hs
  | network e =>
      change (if e.isMessage then none else (ring.step s.ring e).map _) = some s' at hs
      split at hs
      · cases hs
      · obtain ⟨r, hr, rfl⟩ := Option.map_eq_some_iff.mp hs
        exact h.step hc hr

/-- As among the daemons alone, the last condition is about one visit of the token. -/
theorem Multicast.along_orderly_of_settling
    (hc : (overDaemons A C).Along (Multicast.Settling visits first)
      (.start node (Ring.start segIndex visits first)) es) :
    (overDaemons A C).Along Multicast.Orderly
      (.start node (Ring.start segIndex visits first)) es := by
  refine Machine.along_of_invariant (P := fun s ↦ SettlesSome visits first s.ring)
    (fun _ _ _ h hc hs ↦ h.overDaemons hc hs) (fun s e h hc ↦ ?_) ⟨_, _, Settles.start⟩ hc
  cases e with
  | network e => exact ⟨hc.1, hc.2.1, h.raisesAlone hc⟩
  | _ => trivial

/-! ## Refinement -/

/-- **The multicast of a fixed group.**  Whatever the processes are, what they do over the daemons
they can do in a group with multicast that is first in, first out; and there the deliveries of
two processes are the beginning of one sequence. -/
theorem daemons_refine_fifo
    (hc : (overDaemons A C).Along (Multicast.Settling visits first)
      (.start node (Ring.start segIndex visits first)) es)
    (hr : (overDaemons A C).run (.start node (Ring.start segIndex visits first)) es = some s) :
    ∃ fs f, (Fifo.machine A).run (Fifo.start node) fs = some f ∧ f.node = s.node ∧
      (∀ i d, s.ring.daemon i = .ok d →
        (d.messages.take (s.read i)).map MessageLink.received = (f.delivered i).map C.shown) ∧
      ∀ r r', f.delivered r <+: f.delivered r' ∨ f.delivered r' <+: f.delivered r := by
  obtain ⟨fs, f, hfs, -, h⟩ := exists_simulates (Multicast.along_orderly_of_settling hc) hr
  exact ⟨fs, f, hfs, h.node, h.delivered, h.delivered_comparable⟩

/-- In the example a process keeps what it has been handed, and multicasts what it is told to. -/
def keeper : Automaton (Fin 3) (List ℕ) ℕ ℕ where
  act l k := (l, [k])
  receive l m := (l ++ [m], [])
  view l _ := (l, [])

/-- A multicast of one piece. -/
def oneNumber : Codec ℕ ℕ where
  encode m := ⟨.fifo, [m], List.cons_ne_nil m [], one_le_maxScatterElements⟩
  decode c := c.2.head?
  decode_encode _ := rfl
  ordered _ := rfl

/-- Two of three processes multicast, and are handed what the other has multicast. -/
def sampleMulticast : List (Multicast.Event 3 ℕ ℕ) :=
  [.act 1 7, .act 0 5, .network (.token 0 []), .network (.packets 1 0), .network (.packets 2 0),
    .network (.token 1 [false]), .network (.packets 0 1), .network (.packets 2 1), .read 0,
    .read 1, .network (.token 2 []), .network (.token 3 []), .read 0, .read 2, .read 1]

theorem isSome_sampleMulticast : ((overDaemons keeper oneNumber).run
    (.start (fun _ ↦ []) sampleStart) sampleMulticast).isSome := by
  decide +kernel

theorem settling_sampleMulticast :
    (overDaemons keeper oneNumber).Along (Multicast.Settling 0 sampleFirst)
      (.start (fun _ ↦ []) sampleStart) sampleMulticast := by
  decide +kernel

theorem daemons_refine_fifo_sample : ∃ fs f,
    (Fifo.machine keeper).run (Fifo.start fun _ ↦ []) fs = some f ∧
      f.node = (((overDaemons keeper oneNumber).run
        (.start (fun _ ↦ []) sampleStart) sampleMulticast).get isSome_sampleMulticast).node ∧
      ∀ r r', f.delivered r <+: f.delivered r' ∨ f.delivered r' <+: f.delivered r := by
  obtain ⟨fs, f, hfs, hnode, -, hcomparable⟩ := daemons_refine_fifo (C := oneNumber)
    settling_sampleMulticast (Option.some_get isSome_sampleMulticast).symm
  exact ⟨fs, f, hfs, hnode, hcomparable⟩

end Spread
