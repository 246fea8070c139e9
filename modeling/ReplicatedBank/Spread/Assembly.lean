import ReplicatedBank.Distributed.TotalOrder
import ReplicatedBank.Spread.Packet

/-!
# Putting messages together

What the packets of a membership amount to when they are taken in the order of their numbers:
the messages that are complete, in the order of their last packets, and of each daemon the
pieces of a message that is not complete yet.  This is what the daemons are to deliver; it
does not depend on any of them.
-/

namespace Spread

variable {n : ℕ} {β : Type*}

/-- Messages in the making, and those that are complete. -/
structure Assembly (n : ℕ) (β : Type*) where
  /-- The pieces of each daemon's message that is not complete. -/
  up : Fin n → List β
  /-- The complete messages, in order. -/
  messages : List (MessageLink n β)

namespace Assembly

/-- Nothing has been sent. -/
def empty : Assembly n β := ⟨fun _ ↦ [], []⟩

/-- One more packet. -/
def push (a : Assembly n β) (p : Packet n β) : Assembly n β :=
  if p.isSingle then { a with messages := a.messages ++ [p.message] }
  else if p.packetIndex < 0 then
    { up := Function.update a.up p.procId []
      messages := a.messages ++ [⟨p.type, p.procId, p.seq, a.up p.procId ++ [p.body]⟩] }
  else { a with up := Function.update a.up p.procId (a.up p.procId ++ [p.body]) }

/-- Whether the packet is the next piece of its message. -/
def Fits (a : Assembly n β) (p : Packet n β) : Prop :=
  p.isSingle = false → (a.up p.procId).length + 1 = p.packetIndex.natAbs

end Assembly

open Assembly Distributed.TotalOrder

/-- The messages that a sequence of packets amounts to. -/
def assemble (log : List (Packet n β)) : Assembly n β := log.foldl push empty

/-- The packets are numbered from 1, and each is the next piece of its message. -/
structure WellFormed (log : List (Packet n β)) : Prop where
  seq_eq : ∀ k p, log[k]? = some p → p.seq = k + 1
  fits : ∀ k p, log[k]? = some p → (assemble (log.take k)).Fits p

variable {log log' : List (Packet n β)} {p q : Packet n β} {k s : ℕ} {a : Assembly n β}

@[simp] theorem assemble_nil : assemble ([] : List (Packet n β)) = empty := rfl

theorem assemble_concat (log : List (Packet n β)) (p : Packet n β) :
    assemble (log ++ [p]) = (assemble log).push p := by
  simp [assemble]

/-- A longer beginning of the packets has one packet more. -/
theorem assemble_take_succ (h : log[k]? = some p) :
    assemble (log.take (k + 1)) = (assemble (log.take k)).push p := by
  rw [List.take_add_one, h, Option.toList_some, assemble_concat]

/-! ## What a packet adds -/

/-- The message that a packet completes, if it does. -/
def Assembly.completed (a : Assembly n β) (p : Packet n β) : List (MessageLink n β) :=
  if p.isSingle then [p.message]
  else if p.packetIndex < 0 then [⟨p.type, p.procId, p.seq, a.up p.procId ++ [p.body]⟩]
  else []

theorem push_messages (a : Assembly n β) (p : Packet n β) :
    (a.push p).messages = a.messages ++ a.completed p := by
  unfold push completed
  split
  · rfl
  · split
    · rfl
    · simp

theorem completed_of_single (h : p.isSingle) : a.completed p = [p.message] := if_pos h

theorem push_up_of_single (h : p.isSingle) : (a.push p).up = a.up := by
  simp [push, h]

theorem push_up_of_last (h : p.isSingle = false) (hlast : p.packetIndex < 0) :
    (a.push p).up = Function.update a.up p.procId [] := by
  simp [push, h, hlast]

theorem push_up_of_not_last (h : p.isSingle = false) (hlast : ¬p.packetIndex < 0) :
    (a.push p).up = Function.update a.up p.procId (a.up p.procId ++ [p.body]) := by
  simp [push, h, hlast]

/-- Packets of others leave a daemon's message alone. -/
theorem push_up_of_ne {i : Fin n} (h : i ≠ p.procId) : (a.push p).up i = a.up i := by
  unfold push
  split
  · rfl
  · split <;> simp [h]

theorem packetIndex_of_single (h : p.isSingle) : p.packetIndex = -1 := by
  simp only [Packet.isSingle, Bool.and_eq_true, beq_iff_eq] at h
  exact h.2

/-- The message that a packet completes has the packet's number. -/
theorem seq_of_mem_completed {m : MessageLink n β} (h : m ∈ a.completed p) :
    m.seq = p.seq ∧ m.procId = p.procId ∧ m.type = p.type := by
  unfold completed at h
  split at h
  · rw [List.mem_singleton.mp h]
    exact ⟨rfl, rfl, rfl⟩
  · split at h
    · rw [List.mem_singleton.mp h]
      exact ⟨rfl, rfl, rfl⟩
    · cases h

/-- A message is delivered regardless of the order exactly if its packet is. -/
theorem isSingle_of_mem_completed {m : MessageLink n β} (hfits : a.Fits p)
    (h : m ∈ a.completed p) : m.isSingle = p.isSingle := by
  unfold completed at h
  split at h
  · next hp =>
      rw [List.mem_singleton.mp h, hp]
      simp only [Packet.isSingle, Bool.and_eq_true] at hp
      simp [Packet.message, MessageLink.isSingle, hp.1]
  · next hp =>
      split at h
      · next hlast =>
          rw [List.mem_singleton.mp h]
          have hp' : p.isSingle = false := by simpa using hp
          have hlen := hfits hp'
          have hpos : 0 < (p.packetIndex + 1).natAbs ∨ p.packetIndex = -1 := by omega
          rw [hp']
          rcases hpos with hne | heq
          · have hlong : (a.up p.procId ++ [p.body]).length ≠ 1 := by
              rw [List.length_append, List.length_singleton, hlen]
              omega
            simp only [MessageLink.isSingle, beq_eq_false_iff_ne.mpr hlong, Bool.and_false]
          · simp only [Packet.isSingle, heq, beq_self_eq_true, Bool.and_true] at hp'
            simp [MessageLink.isSingle, hp']
      · cases h

/-! ## Longer logs -/

theorem WellFormed.seq_le (h : WellFormed log) (hp : p ∈ log) :
    0 < p.seq ∧ p.seq ≤ log.length ∧ log[p.seq - 1]? = some p := by
  obtain ⟨k, hk⟩ := List.getElem?_of_mem hp
  have hlt : k < log.length := (List.getElem?_eq_some_iff.mp hk).1
  have hseq := h.seq_eq k p hk
  refine ⟨by omega, by omega, ?_⟩
  rw [hseq, Nat.add_sub_cancel]
  exact hk

theorem WellFormed.nil : WellFormed ([] : List (Packet n β)) :=
  ⟨fun _ _ h ↦ by simp at h, fun _ _ h ↦ by simp at h⟩

/-- The next packet. -/
theorem WellFormed.concat (h : WellFormed log) (hseq : p.seq = log.length + 1)
    (hfits : (assemble log).Fits p) : WellFormed (log ++ [p]) := by
  constructor
  · intro k q hq
    rcases getElem?_concat_eq_some.mp hq with hk | ⟨rfl, rfl⟩
    · exact h.seq_eq k q hk
    · exact hseq
  · intro k q hq
    rcases getElem?_concat_eq_some.mp hq with hk | ⟨rfl, rfl⟩
    · have hlt := (List.getElem?_eq_some_iff.mp hk).1
      rw [List.take_append_of_le_length (Nat.le_of_lt hlt)]
      exact h.fits k q hk
    · rwa [List.take_left]

theorem WellFormed.init (h : WellFormed (log ++ [p])) : WellFormed log := by
  constructor
  · exact fun k q hq ↦ h.seq_eq k q (getElem?_concat_eq_some.mpr (Or.inl hq))
  · intro k q hq
    have hlt := (List.getElem?_eq_some_iff.mp hq).1
    have hfits := h.fits k q (getElem?_concat_eq_some.mpr (Or.inl hq))
    rwa [List.take_append_of_le_length (Nat.le_of_lt hlt)] at hfits

/-- More packets complete more messages, after those that were complete. -/
theorem messages_isPrefix (log log' : List (Packet n β)) :
    (assemble log).messages <+: (assemble (log ++ log')).messages := by
  induction log' using List.reverseRecOn with
  | nil => simp
  | append_singleton log' p ih =>
      rw [← List.append_assoc, assemble_concat, push_messages]
      exact ih.trans (List.prefix_append _ _)

/-- The messages are in the order of their last packets. -/
theorem WellFormed.messages_sorted (h : WellFormed log) :
    (assemble log).messages.Pairwise (fun m m' ↦ m.seq < m'.seq) ∧
      ∀ m ∈ (assemble log).messages, m.seq ≤ log.length := by
  induction log using List.reverseRecOn with
  | nil => exact ⟨List.Pairwise.nil, fun m hm ↦ nomatch hm⟩
  | append_singleton log p ih =>
      obtain ⟨hsort, hle⟩ := ih h.init
      have hp : p.seq = log.length + 1 := h.seq_eq log.length p (by simp)
      rw [assemble_concat, push_messages]
      refine ⟨List.pairwise_append.mpr ⟨hsort, ?_, ?_⟩, ?_⟩
      · unfold completed
        split
        · exact List.pairwise_singleton _ _
        · split
          · exact List.pairwise_singleton _ _
          · exact List.Pairwise.nil
      · intro m hm m' hm'
        have hseq := (seq_of_mem_completed hm').1
        have hm := hle m hm
        omega
      · intro m hm
        rw [List.length_append, List.length_singleton]
        rcases List.mem_append.mp hm with hm | hm
        · exact Nat.le_succ_of_le (hle m hm)
        · rw [(seq_of_mem_completed hm).1, hp]

end Spread
