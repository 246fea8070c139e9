import Mathlib.Data.List.Pairwise
import Mathlib.Data.List.Nodup
import Mathlib.Logic.Function.Basic
import Mathlib.Order.Lattice
import Mathlib.Tactic.ByContra
import Mathlib.Tactic.Use

/-!
# Acknowledgement by a circulating token

The participants of a ring number what they send, receive each other's sendings out of
order and with losses, and agree on what everybody has received by passing a token around.
The token carries the highest number in use, `seq`, and a number `aru` up to which all is
supposed to be received.  A participant that lacks something below `aru` lowers it and keeps
it down until it comes to the token again and finds its own number there; only then may it be
raised.  What two consecutive visits of the token agree on is taken to be received
everywhere, and is given up by whoever kept it for retransmission.

The order of the participants is the order in which they last had the token, the one whose
turn it is first; nothing else of the ring is used.  `Sound` is what makes the scheme work:
its step rule `Sound.visit` asks that the number be raised only when nobody else keeps it
down.  `Marked` is why the test that participants make (`Raises`) achieves this, from any
start but one in which the token already carries more than is in use.
-/

namespace Distributed.Aru

/-- The participants of a ring and the token. -/
structure State (ι : Type*) where
  /-- The participants, the one that has waited for the token longest first. -/
  order : List ι
  /-- Up to which number each participant has received everything. -/
  received : ι → ℕ
  /-- The number on the token when each participant last passed it on. -/
  left : ι → ℕ
  /-- Up to which number each participant takes everything to be received everywhere. -/
  stable : ι → ℕ
  /-- Who keeps the number on the token down. -/
  holds : ι → Prop
  /-- The number that each participant recognises as its own when it comes back. -/
  mark : ι → Option ℕ
  /-- The number on the token. -/
  aru : ℕ
  /-- Who wrote it. -/
  last : Option ι
  /-- The highest number in use. -/
  seq : ℕ

namespace State

variable {ι : Type*}

/-- The test for writing one's own number on the token even if it is higher. -/
def Raises (s : State ι) (x : ι) : Prop :=
  s.mark x = some s.aru ∨ s.last = some x ∨ s.aru = s.seq

/-- Whether a participant with everything up to `m` writes its number on the token. -/
def Writes (s : State ι) (x : ι) (m : ℕ) : Prop := s.Raises x ∨ m < s.aru

variable [DecidableEq ι]

instance (s : State ι) (x : ι) : Decidable (s.Raises x) :=
  inferInstanceAs (Decidable (_ ∨ _ ∨ _))

instance (s : State ι) (x : ι) (m : ℕ) : Decidable (s.Writes x m) :=
  inferInstanceAs (Decidable (_ ∨ _))

/-- The number on the token when a participant with everything up to `m` passes it on. -/
def passed (s : State ι) (x : ι) (m : ℕ) : ℕ := if s.Writes x m then m else s.aru

/-- The number that a participant with everything up to `m`, of the numbers up to `h`,
remembers as its own. -/
def marked (s : State ι) (x : ι) (m h : ℕ) : Option ℕ :=
  if s.Raises x then if m < h then some m else none else if m < s.aru then some m else none

/-- The token visits the participant whose turn it is: by then it has everything up to `m`,
and the highest number in use is `h`. -/
def visit (s : State ι) (x : ι) (rest : List ι) (m h : ℕ) : State ι where
  order := rest ++ [x]
  received := Function.update s.received x m
  left := Function.update s.left x (s.passed x m)
  stable := Function.update s.stable x (min (s.left x) (s.passed x m))
  holds := Function.update s.holds x (s.Writes x m ∧ m < h)
  mark := Function.update s.mark x (s.marked x m h)
  aru := s.passed x m
  last := if s.Writes x m then some x else s.last
  seq := h

/-- A participant receives what it lacked. -/
def receive (s : State ι) (x : ι) (m : ℕ) : State ι :=
  { s with received := Function.update s.received x m }

end State

variable {ι : Type*} {s : State ι} {x i j : ι} {rest : List ι} {m h : ℕ}

/-! ## Soundness -/

/-- What relates the participants to each other and to the token.  Whoever passed the token on
later saw at least what an earlier one saw, as far as the token still carries it
(`older`); and when nobody after a participant keeps the number down, the participant's
number is a lower bound for all that followed (`settled`). -/
structure Sound (s : State ι) : Prop where
  nodup : s.order.Nodup
  mem_order : ∀ i, i ∈ s.order
  left_le : ∀ i, s.left i ≤ s.received i
  received_le : ∀ i, s.received i ≤ s.seq
  stable_le_left : ∀ i j, s.stable i ≤ s.left j
  stable_le_aru : ∀ i, s.stable i ≤ s.aru
  stable_mono : s.order.Pairwise fun a b ↦ s.stable a ≤ s.stable b
  older : s.order.Pairwise fun a b ↦ min (s.left a) s.aru ≤ s.left b
  settled : ∀ a post, a :: post <:+ s.order → (∀ b ∈ post, ¬s.holds b) →
    s.left a ≤ s.aru ∧ ∀ b ∈ post, s.left a ≤ s.left b

/-- **Stability.**  What any participant takes to be received everywhere is received by
everyone. -/
theorem Sound.stable_le_received (hs : Sound s) (i j : ι) : s.stable i ≤ s.received j :=
  (hs.stable_le_left i j).trans (hs.left_le j)

/-- The participant whose turn it is has the least idea of what is received everywhere. -/
theorem Sound.stable_head_le (hs : Sound s) (ho : s.order = x :: rest) (i : ι) :
    s.stable x ≤ s.stable i := by
  have hsort := hs.stable_mono
  rw [ho, List.pairwise_cons] at hsort
  rcases List.mem_cons.mp (ho ▸ hs.mem_order i) with rfl | hi
  · exact le_rfl
  · exact hsort.1 i hi

theorem Sound.notMem_rest (hs : Sound s) (ho : s.order = x :: rest) : x ∉ rest := by
  have hn := hs.nodup
  rw [ho, List.nodup_cons] at hn
  exact hn.1

theorem Sound.ne_of_mem (hs : Sound s) (ho : s.order = x :: rest) (hi : i ∈ rest) : i ≠ x := by
  rintro rfl
  exact hs.notMem_rest ho hi

theorem Sound.mem_rest (hs : Sound s) (ho : s.order = x :: rest) (hi : i ≠ x) : i ∈ rest :=
  (List.mem_cons.mp (ho ▸ hs.mem_order i)).resolve_left hi

/-- Where nobody keeps the number down, the numbers passed on have only grown. -/
theorem Sound.sorted_of_unheld (hs : Sound s) {l : List ι} (hl : l <:+ s.order)
    (hn : ∀ b ∈ l.tail, ¬s.holds b) :
    (∀ a ∈ l, s.left a ≤ s.aru) ∧ l.Pairwise fun a b ↦ s.left a ≤ s.left b := by
  induction l with
  | nil => exact ⟨by simp, List.Pairwise.nil⟩
  | cons a post ih =>
      obtain ⟨hle, hpost⟩ := hs.settled a post hl hn
      obtain ⟨hle', hsort⟩ := ih ((List.suffix_cons a post).trans hl)
        fun b hb ↦ hn b (List.mem_of_mem_tail hb)
      exact ⟨List.forall_mem_cons.mpr ⟨hle, hle'⟩, List.pairwise_cons.mpr ⟨hpost, hsort⟩⟩

variable [DecidableEq ι]

/-- What is passed on is at most what the participant has, unless it is left as it was. -/
theorem State.passed_le (s : State ι) (x : ι) (m : ℕ) : s.passed x m ≤ m := by
  unfold State.passed
  split
  · exact le_rfl
  · next hw => exact Nat.le_of_not_lt fun hlt ↦ hw (Or.inr hlt)

/-- Only one's own number can be higher than the number that was there. -/
theorem State.raises_of_lt_passed (hlt : s.aru < s.passed x m) : s.Raises x := by
  unfold State.passed at hlt
  split at hlt
  · next hw => exact hw.resolve_right (Nat.lt_asymm hlt)
  · exact absurd hlt (Nat.lt_irrefl _)

/-- What is passed on is what was there or what the participant has. -/
theorem State.le_passed {k : ℕ} (haru : k ≤ s.aru) (hm : k ≤ m) : k ≤ s.passed x m := by
  unfold State.passed
  split
  · exact hm
  · exact haru

/-- What anybody takes to be received everywhere is on the token, whoever writes. -/
theorem Sound.stable_le_passed (hs : Sound s) (hm : s.received x ≤ m) (i : ι) :
    s.stable i ≤ s.passed x m :=
  State.le_passed (hs.stable_le_aru i) ((hs.stable_le_left i x).trans ((hs.left_le x).trans hm))

/-- The two numbers that a participant has last seen, taken together, were seen by everyone. -/
theorem Sound.min_passed_le (hs : Sound s) (ho : s.order = x :: rest)
    (hr : s.Raises x → ∀ j ∈ rest, ¬s.holds j) :
    (x :: rest).Pairwise fun a b ↦ min (s.left a) (s.passed x m) ≤ s.left b := by
  rcases Nat.lt_or_ge s.aru (s.passed x m) with hlt | hge
  · have hn := hr (State.raises_of_lt_passed hlt)
    have hsuffix : x :: rest <:+ s.order := ho ▸ List.suffix_refl _
    obtain ⟨-, hsort⟩ := hs.sorted_of_unheld hsuffix hn
    exact hsort.imp fun hab ↦ (min_le_left _ _).trans hab
  · have holder := hs.older
    rw [ho] at holder
    exact holder.imp fun hab ↦ by omega

/-- Whoever is followed only by participants that do not keep the number down has passed on
no more than what is passed on now. -/
theorem Sound.left_le_passed (hs : Sound s) (hh : s.seq ≤ h) (hn : ¬(s.Writes x m ∧ m < h))
    (hle : s.left i ≤ s.aru) : s.left i ≤ s.passed x m := by
  unfold State.passed
  split
  · next hw =>
      have hm : h ≤ m := Nat.le_of_not_lt fun hlt ↦ hn ⟨hw, hlt⟩
      exact ((hs.left_le i).trans (hs.received_le i)).trans (hh.trans hm)
  · exact hle

omit [DecidableEq ι] in
/-- What follows a participant after a visit: what followed it before, and then the visitor. -/
theorem cons_suffix_concat {l post : List ι} {a : ι} (hl : a :: post <:+ l ++ [x]) :
    a = x ∧ post = [] ∨ ∃ t, post = t ++ [x] ∧ a :: t <:+ l := by
  obtain hnil | ⟨t, heq, ht⟩ := List.suffix_concat_iff.mp hl
  · cases hnil
  · cases t with
    | nil =>
        obtain ⟨rfl, rfl⟩ := List.cons.inj heq
        exact Or.inl ⟨rfl, rfl⟩
    | cons b t =>
        obtain ⟨rfl, rfl⟩ := List.cons.inj heq
        exact Or.inr ⟨t, rfl, ht⟩

omit [DecidableEq ι] in
/-- A relation between earlier and later participants after a visit. -/
theorem pairwise_concat {R : ι → ι → Prop} (hrest : rest.Pairwise R) (hx : ∀ a ∈ rest, R a x) :
    (rest ++ [x]).Pairwise R := by
  refine List.pairwise_append.mpr ⟨hrest, List.pairwise_singleton R x, fun a ha b hb ↦ ?_⟩
  rw [List.mem_singleton.mp hb]
  exact hx a ha

/-- **The step rule.**  A visit keeps the scheme sound if the number is raised only when
nobody else keeps it down. -/
theorem Sound.visit (hs : Sound s) (ho : s.order = x :: rest) (hm : s.received x ≤ m)
    (hmh : m ≤ h) (hh : s.seq ≤ h) (hr : s.Raises x → ∀ j ∈ rest, ¬s.holds j) :
    Sound (s.visit x rest m h) := by
  have hne : ∀ a ∈ rest, a ≠ x := fun a ha ↦ hs.ne_of_mem ho ha
  have hpassed := hs.min_passed_le (m := m) ho hr
  obtain ⟨hfirst, hrest⟩ := List.pairwise_cons.mp hpassed
  have hstable := hs.stable_mono
  rw [ho] at hstable
  constructor
  case nodup =>
      have hperm : (rest ++ [x]).Perm (x :: rest) := List.perm_append_singleton x rest
      exact hperm.nodup_iff.mpr (ho ▸ hs.nodup)
  case mem_order =>
      intro i
      by_cases hi : i = x
      · simp [State.visit, hi]
      · simp [State.visit, hs.mem_rest ho hi]
  case left_le =>
      intro i
      by_cases hi : i = x
      · subst hi
        simpa [State.visit] using s.passed_le i m
      · simpa [State.visit, hi] using hs.left_le i
  case received_le =>
      intro i
      by_cases hi : i = x
      · simpa [State.visit, hi] using hmh
      · simpa [State.visit, hi] using (hs.received_le i).trans hh
  case stable_le_left =>
      intro i j
      by_cases hj : j = x
      · subst hj
        by_cases hi : i = j
        · simp [State.visit, hi]
        · simpa [State.visit, hi] using hs.stable_le_passed hm i
      · by_cases hi : i = x
        · simpa [State.visit, hi, hj] using hfirst j (hs.mem_rest ho hj)
        · simpa [State.visit, hi, hj] using hs.stable_le_left i j
  case stable_le_aru =>
      intro i
      by_cases hi : i = x
      · simp [State.visit, hi]
      · simpa [State.visit, hi] using hs.stable_le_passed hm i
  case stable_mono =>
      refine pairwise_concat (hstable.tail.imp_of_mem fun ha hb hab ↦ ?_) fun a ha ↦ ?_
      · simpa [State.visit, hne _ ha, hne _ hb] using hab
      · simpa [State.visit, hne a ha] using ⟨hs.stable_le_left a x, hs.stable_le_passed hm a⟩
  case older =>
      refine pairwise_concat (hrest.imp_of_mem fun ha hb hab ↦ ?_) fun a ha ↦ ?_
      · simpa [State.visit, hne _ ha, hne _ hb] using hab
      · simp [State.visit]
  case settled =>
      intro a post hpost hn
      obtain ⟨rfl, rfl⟩ | ⟨t, rfl, ht⟩ := cons_suffix_concat hpost
      · simp [State.visit]
      · have ha : a ∈ rest := ht.subset (by simp)
        have hsuffix : a :: t <:+ s.order := ho ▸ ht.trans (List.suffix_cons x rest)
        have hb : ∀ b ∈ t, b ≠ x := fun b hb ↦ hne b (ht.subset (by simp [hb]))
        obtain ⟨hle, hlt⟩ := hs.settled a t hsuffix fun b hbt ↦ by
          simpa [State.visit, hb b hbt] using hn b (by simp [hbt])
        have hw : ¬(s.Writes x m ∧ m < h) := by simpa [State.visit] using hn x (by simp)
        have hle' : s.left a ≤ s.passed x m := hs.left_le_passed hh hw hle
        refine ⟨by simpa [State.visit, hne a ha] using hle', fun b hbt ↦ ?_⟩
        rcases List.mem_append.mp hbt with hbt | hbt
        · simpa [State.visit, hne a ha, hb b hbt] using hlt b hbt
        · obtain rfl := List.mem_singleton.mp hbt
          simpa [State.visit, hne a ha] using hle'

/-- Receiving keeps the scheme sound. -/
theorem Sound.receive (hs : Sound s) (hm : s.received x ≤ m) (hm' : m ≤ s.seq) :
    Sound (s.receive x m) := by
  refine { hs with left_le := fun i ↦ ?_, received_le := fun i ↦ ?_ }
  · by_cases hi : i = x
    · subst hi
      simpa [State.receive] using (hs.left_le i).trans hm
    · simpa [State.receive, hi] using hs.left_le i
  · by_cases hi : i = x
    · simpa [State.receive, hi] using hm'
    · simpa [State.receive, hi] using hs.received_le i

/-- What a participant takes to be received everywhere never shrinks. -/
theorem Sound.stable_le_visit (hs : Sound s) (hm : s.received x ≤ m) (i : ι) :
    s.stable i ≤ (s.visit x rest m h).stable i := by
  by_cases hi : i = x
  · subst hi
    simpa [State.visit] using ⟨hs.stable_le_left i i, hs.stable_le_passed hm i⟩
  · simp [State.visit, hi]

/-- **The window.**  If numbers are handed out only up to a distance `w` from what the
participant that does so takes to be received everywhere, then the numbers in use are within
that distance from what anybody takes to be received everywhere. -/
theorem Sound.window_visit {w : ℕ} (hs : Sound s) (ho : s.order = x :: rest)
    (hm : s.received x ≤ m) (hw : ∀ i, s.seq ≤ s.stable i + w)
    (hh : h ≤ s.seq ∨ h ≤ s.stable x + w) (i : ι) :
    (s.visit x rest m h).seq ≤ (s.visit x rest m h).stable i + w := by
  have hgrow : s.stable i ≤ (s.visit x rest m h).stable i := hs.stable_le_visit hm i
  have hleast : s.stable x ≤ s.stable i := hs.stable_head_le ho i
  have hbound := hw i
  change h ≤ _
  omega

/-! ## The test for raising the number -/

omit [DecidableEq ι] in
/-- What the marks tell: who keeps the number down marked it at least as high as it is now and
below the numbers in use, those who do so later mark it lower, and after the participant that
wrote it last nobody keeps it down. -/
structure Marked (s : State ι) : Prop where
  held : ∀ i, s.holds i → ∃ v, s.mark i = some v ∧ s.aru ≤ v ∧ v < s.seq
  decreasing : s.order.Pairwise fun a b ↦ s.holds a → s.holds b →
    ∀ u v, s.mark a = some u → s.mark b = some v → v < u
  last_unheld : s.order.Pairwise fun a b ↦ s.last = some a → ¬s.holds b

omit [DecidableEq ι] in
/-- **The test.**  Whoever finds its own number on the token, or itself as the last writer, or
all the numbers in use acknowledged, is alone in keeping the number down, provided that a
number it recognises without keeping it down is not kept down by others. -/
theorem Marked.unheld_of_raises (hs : Marked s) (ho : s.order = x :: rest)
    (hstale : s.mark x = some s.aru → ¬s.holds x → ∀ j ∈ rest, ¬s.holds j)
    (hr : s.Raises x) : ∀ j ∈ rest, ¬s.holds j := by
  intro j hj hh
  obtain ⟨v, hv, hle, hlt⟩ := hs.held j hh
  rcases hr with hmark | hlast | htop
  · by_cases hx : s.holds x
    · have hdec := hs.decreasing
      rw [ho, List.pairwise_cons] at hdec
      have hlow : v < s.aru := hdec.1 j hj hx hh _ _ hmark hv
      omega
    · exact hstale hmark hx j hj hh
  · have hfree := hs.last_unheld
    rw [ho, List.pairwise_cons] at hfree
    exact hfree.1 j hj hlast hh
  · omega

theorem State.passed_le_of_unraised (hr : ¬s.Raises x) : s.passed x m ≤ s.aru := by
  unfold State.passed
  split
  · next hw => exact Nat.le_of_lt (hw.resolve_left hr)
  · exact le_rfl

theorem State.passed_eq_of_writes (hw : s.Writes x m) : s.passed x m = m := if_pos hw

/-- A number that is kept down is marked. -/
theorem State.marked_of_writes (hw : s.Writes x m) (hlt : m < h) :
    s.marked x m h = some m := by
  unfold State.marked
  by_cases hr : s.Raises x
  · rw [if_pos hr, if_pos hlt]
  · rw [if_neg hr, if_pos (hw.resolve_left hr)]

/-- The step rule for the marks. -/
theorem Marked.visit (hs : Marked s) (hsound : Sound s) (ho : s.order = x :: rest)
    (hh : s.seq ≤ h) (hr : s.Raises x → ∀ j ∈ rest, ¬s.holds j) :
    Marked (s.visit x rest m h) := by
  have hne : ∀ a ∈ rest, a ≠ x := fun a ha ↦ hsound.ne_of_mem ho ha
  have hdec := hs.decreasing
  have hfree := hs.last_unheld
  rw [ho] at hdec hfree
  have hkept : ∀ i ∈ rest, s.holds i → s.passed x m ≤ s.aru := fun i hi hhi ↦
    State.passed_le_of_unraised fun hrx ↦ hr hrx i hi hhi
  constructor
  case held =>
      intro i hi
      by_cases hix : i = x
      · subst hix
        obtain ⟨hw, hlt⟩ : s.Writes i m ∧ m < h := by simpa [State.visit] using hi
        refine ⟨m, by simpa [State.visit] using State.marked_of_writes hw hlt, ?_, hlt⟩
        exact (State.passed_eq_of_writes hw).le
      · have hi' : s.holds i := by simpa [State.visit, hix] using hi
        obtain ⟨v, hv, hle, hlt⟩ := hs.held i hi'
        refine ⟨v, by simpa [State.visit, hix] using hv, ?_, hlt.trans_le hh⟩
        exact (hkept i (hsound.mem_rest ho hix) hi').trans hle
  case decreasing =>
      refine pairwise_concat (hdec.tail.imp_of_mem fun ha hb hab ↦ ?_) fun a ha ↦ ?_
      · simpa [State.visit, hne _ ha, hne _ hb] using hab
      · intro hha hhx u v hu hv
        have ha' : s.holds a := by simpa [State.visit, hne a ha] using hha
        obtain ⟨hw, hlt⟩ : s.Writes x m ∧ m < h := by simpa [State.visit] using hhx
        obtain rfl : m = v := by
          simpa [State.visit, State.marked_of_writes hw hlt] using hv
        obtain ⟨w, hmark, hle, -⟩ := hs.held a ha'
        obtain rfl : w = u := by simpa [State.visit, hne a ha, hmark] using hu
        exact (hw.resolve_left fun hrx ↦ hr hrx a ha ha').trans_le hle
  case last_unheld =>
      refine pairwise_concat (hfree.tail.imp_of_mem fun ha hb hab hlast ↦ ?_) fun a ha hlast ↦ ?_
      · by_cases hw : s.Writes x m
        · exact absurd (by simpa [State.visit, hw] using hlast.symm) (hne _ ha)
        · simpa [State.visit, hne _ hb] using hab (by simpa [State.visit, hw] using hlast)
      · by_cases hw : s.Writes x m
        · exact absurd (by simpa [State.visit, hw] using hlast.symm) (hne a ha)
        · simp [State.visit, hw]

theorem Marked.receive (hs : Marked s) (x : ι) (m : ℕ) : Marked (s.receive x m) :=
  ⟨hs.held, hs.decreasing, hs.last_unheld⟩

/-! ## Starting -/

/-- The participants before anything is sent, and the token with some number on it. -/
def start (order : List ι) (aru : ℕ) (last : Option ι) : State ι where
  order := order
  received _ := 0
  left _ := 0
  stable _ := 0
  holds _ := False
  mark _ := none
  aru := aru
  last := last
  seq := 0

section

omit [DecidableEq ι]

variable {order : List ι} {aru : ℕ} {last : Option ι}

theorem Sound.start (hn : order.Nodup) (hall : ∀ i, i ∈ order) :
    Sound (start order aru last) where
  nodup := hn
  mem_order := hall
  left_le _ := Nat.zero_le _
  received_le _ := Nat.zero_le _
  stable_le_left _ _ := Nat.zero_le _
  stable_le_aru _ := Nat.zero_le _
  stable_mono := List.pairwise_of_forall fun _ _ ↦ Nat.zero_le _
  older := List.pairwise_of_forall fun _ _ ↦ by simp [Aru.start]
  settled _ _ _ _ := ⟨Nat.zero_le _, fun _ _ ↦ Nat.zero_le _⟩

theorem Marked.start : Marked (start order aru last) where
  held _ := False.elim
  decreasing := List.pairwise_of_forall fun _ _ ↦ False.elim
  last_unheld := List.pairwise_of_forall fun _ _ _ ↦ id

end

/-! ## Stale marks -/

variable {stale stale' : ι → Prop}

omit [DecidableEq ι] in
/-- Every mark belongs to someone who keeps the number down, except for some that may be stale. -/
def Regular (s : State ι) (stale : ι → Prop) : Prop :=
  ∀ i v, s.mark i = some v → s.holds i ∨ stale i

omit [DecidableEq ι] in
theorem Regular.start {order : List ι} {aru : ℕ} {last : Option ι} :
    Regular (start order aru last) stale :=
  fun _ _ hm ↦ absurd hm.symm (Option.some_ne_none _)

omit [DecidableEq ι] in
/-- If no mark is stale, whoever recognises its own number is alone in keeping it down. -/
theorem Regular.unmarked (hs : Regular s stale) (hm : Marked s) (hsound : Sound s)
    (ho : s.order = x :: rest) (hmark : s.mark x = some s.aru) (hstale : ∀ i, ¬stale i)
    (hj : j ≠ x) : s.mark j = none := by
  cases hv : s.mark j with
  | none => rfl
  | some v =>
      have hheld := (hs j v hv).resolve_right (hstale j)
      have hx := (hs x _ hmark).resolve_right (hstale x)
      have hdec := hm.decreasing
      rw [ho, List.pairwise_cons] at hdec
      have hlow : v < s.aru := hdec.1 j (hsound.mem_rest ho hj) hx hheld _ _ hmark hv
      obtain ⟨w, hw, hle, -⟩ := hm.held j hheld
      rw [hv, Option.some.injEq] at hw
      omega

theorem Regular.receive (hs : Regular s stale) (x : ι) (m : ℕ) :
    Regular (s.receive x m) stale := hs

/-- The step rule for marks that may be stale: a visit makes no new one, if the token does not
carry more than is in use or the number is raised. -/
theorem Regular.visit (hs : Regular s stale) (hh : s.seq ≤ h)
    (hx : s.Raises x ∨ s.aru ≤ s.seq ∨ stale' x) (hkeep : ∀ i, i ≠ x → stale i → stale' i) :
    Regular (s.visit x rest m h) stale' := by
  intro i v hv
  by_cases hi : i = x
  · subst hi
    refine or_iff_not_imp_right.mpr fun hnot ↦ ?_
    have hv' : s.marked i m h = some v := by simpa [State.visit] using hv
    suffices hw : s.Writes i m ∧ m < h by simpa [State.visit] using hw
    unfold State.marked at hv'
    split at hv'
    · next hr =>
        refine ⟨Or.inl hr, ?_⟩
        by_contra hlt
        simp [hlt] at hv'
    · next hr =>
        have hlt : m < s.aru := by
          by_contra hlt
          simp [hlt] at hv'
        have hle : s.aru ≤ s.seq := (hx.resolve_left hr).resolve_right hnot
        exact ⟨Or.inr hlt, hlt.trans_le (hle.trans hh)⟩
  · refine (hs i v (by simpa [State.visit, hi] using hv)).imp (fun hheld ↦ ?_) (hkeep i hi)
    simpa [State.visit, hi] using hheld

end Distributed.Aru
