import ReplicatedBank.Spread.Delivery

/-!
# Receiving packets

`Prot_handle_bcast` keeps the invariant of the daemon whatever packets of the membership
arrive, in whatever order, and however often.
-/

namespace Spread

open Program

variable {n : ℕ} {β : Type*} {log : List (Packet n β)} {a b : ℕ} {d : Daemon n β}
variable {p : Packet n β}

/-- A daemon without what the arrival of packets changes. -/
def Daemon.standing (d : Daemon n β) : Daemon n β :=
  { d.control with highestSeq := 0, myAru := 0 }

/-- What the arrival of packets does not change is the same. -/
theorem Daemon.eq_of_standing {α : Type*} {d d' : Daemon n β} (f : Daemon n β → α)
    (hf : ∀ d : Daemon n β, f d.standing = f d) (h : d'.standing = d.standing) : f d' = f d := by
  rw [← hf d', h, hf]

theorem Daemon.standing_of_control {d d' : Daemon n β} (h : d'.control = d.control) :
    d'.standing = d.standing := by
  unfold Daemon.standing
  rw [h]

/-! ## The packets that are there -/

/-- `My_aru` moves over packets that are there, and stops at one that is not. -/
theorem advanceLoop_spec : ∀ (k : ℕ) (d : Daemon n β), ∃ m, d.myAru ≤ m ∧ m ≤ d.myAru + k ∧
    d.advanceLoop k = { d with myAru := m } ∧
    (∀ s, d.myAru < s → s ≤ m → (d.packets (packetEntry s)).isSome) ∧
    (m < d.myAru + k → d.packets (packetEntry (m + 1)) = none) := by
  intro k
  induction k with
  | zero => exact fun d ↦ ⟨d.myAru, le_rfl, le_rfl, rfl, by omega, by omega⟩
  | succ k ih =>
      intro d
      rw [Daemon.advanceLoop]
      split
      · next hsome =>
          obtain ⟨m, hle, hle', heq, hhas, hstop⟩ := ih { d with myAru := d.myAru + 1 }
          refine ⟨m, Nat.le_of_succ_le hle, ?_, heq, fun s hlow hs ↦ ?_, fun hlt ↦ hstop ?_⟩
          · change m ≤ d.myAru + 1 + k at hle'
            omega
          · rcases Nat.lt_or_eq_of_le hlow with hlt | rfl
            · exact hhas s hlt hs
            · exact hsome
          · change m < d.myAru + 1 + k
            omega
      · next hnone =>
          exact ⟨d.myAru, le_rfl, Nat.le_add_right _ _, rfl, by omega, fun _ ↦ by simpa using hnone⟩

/-- A daemon that counts more of what it has. -/
theorem Local.advance (hd : Local log a b d) {m : ℕ} (hm : d.myAru ≤ m) (hle : m ≤ d.highestSeq)
    (hhas : ∀ s, d.myAru < s → s ≤ m → (d.packets (packetEntry s)).isSome) :
    Local log a b { d with myAru := m } := by
  refine ⟨{ hd.slots with received := ?_, delivered_le := ?_, myAru_le := hle },
    { hd.handed with }, hd.safe, { hd.own with }⟩
  · intro s hlow hs
    rcases Nat.lt_or_ge d.myAru s with hlt | hge
    · exact hhas s hlt hs
    · exact hd.slots.received s hlow hge
  · exact Nat.le_trans hd.slots.delivered_le hm

/-- `My_aru` is moved up to the first packet that is missing. -/
theorem advanceMyAru_spec (hd : Local log a b d) : ∃ m, d.myAru ≤ m ∧ m ≤ d.highestSeq ∧
    d.advanceMyAru = { d with myAru := m } ∧ Local log a b d.advanceMyAru ∧
    (m < d.highestSeq → d.packets (packetEntry (m + 1)) = none) := by
  obtain ⟨m, hle, hle', heq, hhas, hstop⟩ := advanceLoop_spec (d.highestSeq - d.myAru) d
  have hmy := hd.slots.myAru_le
  have hm : m ≤ d.highestSeq := by omega
  refine ⟨m, hle, hm, heq, ?_, fun hlt ↦ hstop (by omega)⟩
  rw [Daemon.advanceMyAru, heq]
  exact hd.advance hle hm hhas

/-! ## One packet -/

/-- A daemon with one packet more. -/
abbrev Daemon.insert (d : Daemon n β) (p : Packet n β) : Daemon n β :=
  { d with
    packets := Function.update d.packets (packetEntry p.seq) (some ⟨p, false⟩)
    highestSeq := max d.highestSeq p.seq }

/-- A packet that is new here takes its slot. -/
theorem Slots.insert (hs : Slots log a b d) (hw : WellFormed log) (hp : p ∈ log)
    (hlow : b < p.seq) (hwindow : log.length ≤ b + maxPacketsInStruct)
    (hnone : d.packets (packetEntry p.seq) = none) : Slots log a b (d.insert p) := by
  obtain ⟨-, hlen, hlog⟩ := hw.seq_le hp
  have hnew : d.myAru < p.seq := Nat.lt_of_not_le fun hle ↦ by
    have h := hs.received p.seq hlow hle
    rw [hnone] at h
    cases h
  have hhigh := hs.highest_le
  have hmy := hs.myAru_le
  have hale := hs.delivered_le
  have hcases : ∀ k info, (d.insert p).packets k = some info →
      (k = packetEntry p.seq ∧ info = ⟨p, false⟩) ∨ d.packets k = some info := by
    intro k info h
    by_cases hk : k = packetEntry p.seq
    · subst hk
      exact Or.inl ⟨rfl, by simpa [eq_comm] using h⟩
    · exact Or.inr (by simpa [hk] using h)
  constructor
  case stored =>
      intro k info h
      rcases hcases k info h with ⟨rfl, rfl⟩ | h
      · exact ⟨rfl, hlow, Nat.le_max_right _ _, hlog⟩
      · obtain ⟨hentry, hb, hle, hl⟩ := hs.stored k info h
        exact ⟨hentry, hb, Nat.le_trans hle (Nat.le_max_left _ _), hl⟩
  case window =>
      change max d.highestSeq p.seq ≤ _
      omega
  case highest_le => exact Nat.max_le.mpr ⟨hhigh, hlen⟩
  case received =>
      intro s hlow hsle
      change (Function.update d.packets (packetEntry p.seq) _ (packetEntry s)).isSome
      by_cases hk : packetEntry s = packetEntry p.seq
      · simp [hk]
      · rw [Function.update_of_ne hk]
        exact hs.received s hlow hsle
  case discarded_le => exact hs.discarded_le
  case delivered_le => exact hs.delivered_le
  case myAru_le => exact Nat.le_trans hmy (Nat.le_max_left _ _)
  case delivered =>
      intro k info h hle
      rcases hcases k info h with ⟨rfl, rfl⟩ | h
      · have hle' : p.seq ≤ a := hle
        omega
      · exact hs.delivered k info h hle
  case early =>
      intro k info h hlt hdel
      rcases hcases k info h with ⟨rfl, rfl⟩ | h
      · cases hdel
      · exact hs.early k info h hlt hdel

/-- The sessions are not concerned when a packet arrives. -/
theorem Handed.insert (hh : Handed log a d) (hnone : d.packets (packetEntry p.seq) = none) :
    Handed log a (d.insert p) := by
  have hdone : ∀ q : Packet n β, Done a (d.insert p) q ↔ Done a d q := by
    refine fun q ↦ or_congr_right ?_
    by_cases hk : packetEntry q.seq = packetEntry p.seq
    · simp only [hk, Function.update_self, hnone, reduceCtorEq, false_and, exists_false, iff_false]
      rintro ⟨info, h, -, hdel⟩
      rw [← Option.some.inj h] at hdel
      cases hdel
    · simp only [Function.update_of_ne hk]
  refine ⟨hh.up, hh.upSingle, hh.ordered, fun m hm ↦ ?_, hh.nodup⟩
  simp only [hdone]
  exact hh.single m hm

/-- No packet that a daemon has made gives way to one that arrives. -/
theorem Own.insert (ho : Own log b d) (p : Packet n β) : Own log b (d.insert p) := by
  refine ⟨fun q hq hmine ↦ Nat.le_trans (ho.le q hq hmine) (Nat.le_max_left _ _),
    fun q hq hmine hlow ↦ ?_, Nat.le_trans ho.fifo_le (Nat.le_max_left _ _)⟩
  change (Function.update d.packets (packetEntry p.seq) _ (packetEntry q.seq)).isSome
  by_cases hk : packetEntry q.seq = packetEntry p.seq
  · simp [hk]
  · rw [Function.update_of_ne hk]
    exact ho.kept q hq hmine hlow

theorem Local.insert (hd : Local log a b d) (hw : WellFormed log) (hp : p ∈ log)
    (hlow : b < p.seq) (hwindow : log.length ≤ b + maxPacketsInStruct)
    (hnone : d.packets (packetEntry p.seq) = none) : Local log a b (d.insert p) :=
  ⟨hd.slots.insert hw hp hlow hwindow hnone, hd.handed.insert hnone, hd.safe, hd.own.insert p⟩

/-- What the arrival of packets leads to. -/
structure Receives (log : List (Packet n β)) (d d' : Daemon n β) : Prop where
  standing : d'.standing = d.standing
  lastDiscarded : d'.lastDiscarded = d.lastDiscarded
  messages : d.messages <+: d'.messages
  myAru_le : d.myAru ≤ d'.myAru
  consistent : Consistent log d'

theorem Receives.trans {d₁ d₂ : Daemon n β} (h : Receives log d d₁) (h' : Receives log d₁ d₂) :
    Receives log d d₂ :=
  ⟨h'.standing.trans h.standing, h'.lastDiscarded.trans h.lastDiscarded,
    h.messages.trans h'.messages, Nat.le_trans h.myAru_le h'.myAru_le, h'.consistent⟩

/-- One packet of those that arrive. -/
theorem insertPacket_returns (hw : WellFormed log) (hd : Consistent log d) (hp : p ∈ log)
    (hdisc : d.lastDiscarded ≤ d.aru)
    (hwindow : log.length ≤ d.lastDiscarded + maxPacketsInStruct) :
    Returns (d.insertPacket p) (Receives log d) := by
  unfold Daemon.insertPacket
  split
  · exact returns_ok.mpr ⟨rfl, rfl, List.prefix_rfl, le_rfl, hd⟩
  · next hgt =>
      split
      · exact returns_ok.mpr ⟨rfl, rfl, List.prefix_rfl, le_rfl, hd⟩
      · next hnone =>
          have hins := hd.insert hw hp (by omega) hwindow (by simpa using hnone)
          dsimp only
          split
          · obtain ⟨m, hm, -, heq, hadv, -⟩ := advanceMyAru_spec hins
            rw [heq] at hadv ⊢
            refine (deliverAgreedPackets_returns hw hadv).mono fun d' ⟨hc, hdisc, hmore, h⟩ ↦ ?_
            refine ⟨(Daemon.standing_of_control hc).trans rfl, hdisc, hmore, ?_, h⟩
            rw [Daemon.eq_of_control Daemon.myAru (fun _ ↦ rfl) hc]
            exact hm
          · refine (deliverReliablePackets_returns hw hins p.seq 1).mono
              fun d' ⟨hc, hdisc, hmore, h⟩ ↦ ?_
            refine ⟨(Daemon.standing_of_control hc).trans rfl, hdisc, hmore, ?_, h⟩
            rw [Daemon.eq_of_control Daemon.myAru (fun _ ↦ rfl) hc]

/-- **`Prot_handle_bcast`.**  Packets of the membership are taken in without an alarm. -/
theorem protHandleBcast_returns {ps : List (Packet n β)} (hw : WellFormed log)
    (hd : Consistent log d) (hps : ∀ p ∈ ps, p ∈ log) (hdisc : d.lastDiscarded ≤ d.aru)
    (hwindow : log.length ≤ d.lastDiscarded + maxPacketsInStruct) :
    Returns (d.protHandleBcast ps) (Receives log d) := by
  refine returns_foldlM (fun p hp d₁ h ↦ ?_) ⟨rfl, rfl, List.prefix_rfl, le_rfl, hd⟩
  have haru : d₁.aru = d.aru := Daemon.eq_of_standing Daemon.aru (fun _ ↦ rfl) h.standing
  refine (insertPacket_returns hw h.consistent (hps p hp) ?_ ?_).mono fun d₂ h₂ ↦ h.trans h₂
  · rw [h.lastDiscarded, haru]
    exact hdisc
  · rw [h.lastDiscarded]
    exact hwindow

end Spread
