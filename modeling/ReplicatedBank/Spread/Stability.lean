import ReplicatedBank.Spread.Ring
import ReplicatedBank.Spread.Visit

/-!
# The invariant of the ring

What holds at all times of the daemons of a membership, of the packets and tokens on their way
and of the token whose turn it is.  The daemons and the token make up a state of the scheme of
acknowledgement (`scheme`), and every event of the ring is a step of the scheme or leaves it
alone: a token that is accepted is always the one of this round (`Inv.current_of_handle`), at the
daemon whose turn it is.
-/

namespace Spread

open Program Distributed

variable {n : ℕ} {β : Type*}

/-! ## Turns -/

/-- After `q` full rounds and part of another. -/
theorem rounds_mul_add {q r : ℕ} (hr : r ≤ n) (i : Fin n) :
    rounds (n * q + r) i = if i.val < r then q + 1 else q := by
  have hi := i.isLt
  have hpos : 0 < n := Nat.zero_lt_of_lt hi
  unfold rounds
  rcases Nat.lt_or_eq_of_le hr with hlt | rfl
  · simp only [Nat.mul_add_mod, Nat.mod_eq_of_lt hlt, Nat.mul_add_div hpos,
      Nat.div_eq_of_lt hlt, Nat.add_zero]
  · rw [if_pos hi, ← Nat.mul_succ, Nat.mul_mod_right, Nat.mul_div_cancel_left _ hpos,
      if_neg (Nat.not_lt_zero _)]

variable [NeZero n]

theorem val_turn (v : ℕ) : (turn v : Fin n).val = v % n := rfl

theorem turn_succ (v : ℕ) : turn (v + 1) = (turn v + 1 : Fin n) := by
  ext
  simp [turn, Fin.ofNat, Fin.val_add]

theorem rounds_succ (v : ℕ) (i : Fin n) :
    rounds (v + 1) i = if i = turn v then rounds v i + 1 else rounds v i := by
  have hlt := Nat.mod_lt v (Nat.pos_of_neZero n)
  have heq : (i = turn v) ↔ i.val = v % n := by rw [Fin.ext_iff, val_turn]
  simp only [heq]
  conv_lhs => rw [← Nat.div_add_mod v n]
  conv_rhs => rw [← Nat.div_add_mod v n]
  rw [Nat.add_assoc, rounds_mul_add hlt, rounds_mul_add hlt.le, Nat.mul_add_mod, Nat.mod_mod]
  split <;> split <;> split <;> omega

/-- The daemon before a daemon on the ring has had its turn as often, except while the daemon is
to have it. -/
theorem rounds_pred (v : ℕ) (i : Fin n) :
    rounds v i + (if i + 1 = 0 then 1 else 0) =
      rounds v (i + 1) + if i + 1 = turn v then 1 else 0 := by
  have hlt := Nat.mod_lt v (Nat.pos_of_neZero n)
  have hi := i.isLt
  have hval : (i + 1).val = (i.val + 1) % n := by rw [Fin.val_add, Fin.val_one', Nat.add_mod_mod]
  have heq : (i + 1 = turn v) ↔ (i + 1).val = v % n := by rw [Fin.ext_iff, val_turn]
  have hzero : (i + 1 = 0) ↔ (i + 1).val = 0 := by rw [Fin.ext_iff, Fin.val_zero]
  simp only [heq, hzero, rounds, hval]
  generalize v / n = q
  have hcases : i.val + 1 < n ∨ i.val + 1 = n := Nat.lt_or_eq_of_le hi
  rcases hcases with hnext | hlast
  · rw [Nat.mod_eq_of_lt hnext, if_neg (Nat.succ_ne_zero i.val)]
    split_ifs <;> omega
  · rw [hlast, Nat.mod_self, if_pos rfl]
    split_ifs <;> omega

/-- The order before and after a turn. -/
theorem order_eq (v : ℕ) : ∃ rest, order v = (turn v : Fin n) :: rest ∧
    order (v + 1) = rest ++ [(turn v : Fin n)] := by
  have hlen : (order v : List (Fin n)).length = n := by simp [order]
  cases hl : (order v : List (Fin n)) with
  | nil =>
      rw [hl] at hlen
      exact absurd hlen (NeZero.ne n).symm
  | cons x rest =>
      have hx : x = turn v := by
        have h0 : (order v : List (Fin n))[0]? = some x := by rw [hl]; rfl
        have hpos : 0 < (List.finRange n).length := by simpa using Nat.pos_of_neZero n
        rw [order, List.getElem?_rotate hpos] at h0
        rw [List.getElem?_eq_some_iff] at h0
        obtain ⟨_, h⟩ := h0
        rw [← h]
        ext
        simp [turn, Fin.ofNat]
      subst hx
      refine ⟨rest, rfl, ?_⟩
      rw [order, ← List.rotate_rotate, ← order, hl, List.rotate_cons_succ, List.rotate_zero]

omit [NeZero n] in
theorem nodup_order (v : ℕ) : (order v : List (Fin n)).Nodup :=
  List.nodup_rotate.mpr (List.nodup_finRange n)

omit [NeZero n] in
theorem mem_order (v : ℕ) (i : Fin n) : i ∈ order v := List.mem_rotate.mpr (List.mem_finRange i)

/-! ## The invariant -/

/-- The scheme of acknowledgement, as the daemons and a token show it. -/
def scheme (s : Ring n β) (ds : Fin n → Daemon n β) (holds : Fin n → Prop) (t : Token n) :
    Aru.State (Fin n) where
  order := order s.visits
  received i := (ds i).myAru
  left i := (ds i).lastToken.aru
  stable i := (ds i).aru
  holds := holds
  mark i := (ds i).setAru
  aru := t.aru
  last := t.aruLastId
  seq := t.seq

/-- A token of this round: the one that was passed on last, as it was sent or as its sender
remembers it. -/
def Current (s : Ring n β) (ds : Fin n → Daemon n β) (t : Token n) : Prop :=
  t = (ds (turn s.visits - 1)).lastToken ∨
    (turn s.visits - 1, rounds s.visits (turn s.visits - 1 : Fin n), t) ∈ s.tokens

/-- What holds of a token of this round. -/
structure Carries (s : Ring n β) (ds : Fin n → Daemon n β) (holds : Fin n → Prop)
    (t : Token n) : Prop where
  seq : t.seq = s.log.length
  sound : Aru.Sound (scheme s ds holds t)
  marked : Aru.Marked (scheme s ds holds t)
  requests : ∀ rtr ∈ t.rtr, ∀ seq ∈ rtr.seqs, (ds (turn s.visits - 1)).lastToken.aru ≤ seq

/-- The invariant of the ring, with the daemons `ds` and with `holds` for who keeps the number
on the token down. -/
structure Inv (s : Ring n β) (ds : Fin n → Daemon n β) (holds : Fin n → Prop) : Prop where
  daemon : ∀ i, s.daemon i = .ok (ds i)
  my_id : ∀ i, (ds i).my.id = i
  wellFormed : WellFormed s.log
  packets : ∀ ps ∈ s.packets, ∀ p ∈ ps, p ∈ s.log
  consistent : ∀ i, Consistent s.log (ds i)
  discarded : ∀ i, (ds i).lastDiscarded = (ds i).aru
  sender : ∀ i, Sender s.log (s.submitted i) (ds i)
  window : ∀ i, s.log.length ≤ (ds i).aru + maxSeqGap + maxNew
  fits : s.log.length < maxInt32
  arq : ∀ i, (ds i).lastToken.arq = rounds s.visits i % 16
  tokens : ∀ p ∈ s.tokens, p.2.1 ≤ rounds s.visits p.1 ∧ p.2.2.arq = p.2.1 % 16
  carries : ∀ t, Current s ds t → Carries s ds holds t

variable {s : Ring n β} {ds : Fin n → Daemon n β} {holds : Fin n → Prop} {t : Token n}
variable {i : Fin n} {d' : Daemon n β}

/-- Every daemon is at work. -/
theorem Inv.mem_toOption (h : Inv s ds holds) (i : Fin n) : ds i ∈ (s.daemon i).toOption := by
  rw [h.daemon]
  rfl

/-- **A single token.**  A token that is accepted is the one of this round, and it is accepted by
the daemon whose turn it is. -/
theorem Inv.current_of_handle (h : Inv s ds holds) {r : ℕ} (hp : (i, r, t) ∈ s.tokens)
    (hfresh : rounds s.visits i < r + 15) (hv : (ds (i + 1)).verdict t = .handle) :
    i + 1 = turn s.visits ∧ Current s ds t := by
  obtain ⟨hle, harq⟩ := h.tokens _ hp
  have hpred := rounds_pred s.visits i
  have hlast := h.arq (i + 1)
  dsimp only at hle harq
  have hround : i + 1 = turn s.visits ∧ r = rounds s.visits i := by
    unfold Daemon.verdict at hv
    by_cases hzero : i + 1 = 0
    · have hleader : (ds (i + 1)).isLeader = true := by simp [Daemon.isLeader, h.my_id, hzero]
      rw [if_pos hleader] at hv
      split at hv
      · cases hv
      · next heq =>
          rw [ne_eq, Decidable.not_not, harq, hlast] at heq
          rw [if_pos hzero] at hpred
          by_cases hturn : i + 1 = turn s.visits
          · rw [if_pos hturn] at hpred
            exact ⟨hturn, by omega⟩
          · rw [if_neg hturn] at hpred
            omega
    · have hleader : (ds (i + 1)).isLeader = false := by simp [Daemon.isLeader, h.my_id, hzero]
      rw [if_neg (by simp [hleader])] at hv
      split at hv
      · split at hv <;> cases hv
      · split at hv
        · cases hv
        · next heq =>
            rw [ne_eq, Decidable.not_not, harq, hlast] at heq
            rw [if_neg hzero] at hpred
            by_cases hturn : i + 1 = turn s.visits
            · rw [if_pos hturn] at hpred
              exact ⟨hturn, by omega⟩
            · rw [if_neg hturn] at hpred
              omega
  obtain ⟨hturn, rfl⟩ := hround
  refine ⟨hturn, Or.inr ?_⟩
  rwa [← hturn, add_sub_cancel_right]

/-! ## Between the visits of the token -/

/-- A daemon after something that leaves the acknowledgement alone: it has received more, and
has dropped the requests from the token that it remembers or not. -/
structure Replaces (log : List (Packet n β)) (d d' : Daemon n β) : Prop where
  my : d'.my = d.my
  consistent : Consistent log d'
  aru : d'.aru = d.aru
  discarded : d'.lastDiscarded = d.lastDiscarded
  setAru : d'.setAru = d.setAru
  messages : d.messages <+: d'.messages
  myAru_le : d.myAru ≤ d'.myAru
  token : ∃ rtr retrans, d'.lastToken = { d.lastToken with rtr, retrans } ∧
    (rtr = d.lastToken.rtr ∨ rtr = [])

omit [NeZero n] in
theorem forall_update {P : Fin n → Daemon n β → Prop} (hi : P i d') (h : ∀ j, P j (ds j))
    (j : Fin n) : P j (Function.update ds i d' j) := by
  by_cases hj : j = i
  · subst hj
    rwa [Function.update_self]
  · rw [Function.update_of_ne hj]
    exact h j

omit [NeZero n] in
/-- In the scheme the daemon has received more, and nothing else. -/
theorem Replaces.scheme_eq {s' : Ring n β} (hr : Replaces s.log (ds i) d')
    (hv : s'.visits = s.visits) (t : Token n) :
    scheme s' (Function.update ds i d') holds t = (scheme s ds holds t).receive i d'.myAru := by
  obtain ⟨rtr, retrans, htok, -⟩ := hr.token
  have hcongr : ∀ {γ : Type} (f : Daemon n β → γ), f d' = f (ds i) →
      (fun j ↦ f (Function.update ds i d' j)) = fun j ↦ f (ds j) := fun f hf ↦ by
    funext j
    by_cases hj : j = i
    · rw [hj, Function.update_self, hf]
    · rw [Function.update_of_ne hj]
  have hleft := hcongr (fun d ↦ d.lastToken.aru) (by simp only [htok])
  have hstable := hcongr Daemon.aru hr.aru
  have hmark := hcongr Daemon.setAru hr.setAru
  have hreceived : (fun j ↦ (Function.update ds i d' j).myAru) =
      Function.update (fun j ↦ (ds j).myAru) i d'.myAru := by
    funext j
    by_cases hj : j = i
    · simp [hj]
    · simp [hj]
  unfold scheme Aru.State.receive
  rw [hv, hleft, hstable, hmark, hreceived]

/-- A token of this round was one before, or is one that is sent again. -/
theorem Replaces.current (hr : Replaces s.log (ds i) d') {sub : List (DownLink β)}
    {out : Output n β} (htok : ∀ t ∈ out.tokens, t = d'.lastToken)
    (ht : Current { s.emit i (d', out) with submitted := Function.update s.submitted i sub }
      (Function.update ds i d') t) :
    ∃ t₀ : Token n, Current s ds t₀ ∧
      ∃ rtr retrans, t = { t₀ with rtr, retrans } ∧ (rtr = t₀.rtr ∨ rtr = []) := by
  obtain ⟨rtr, retrans, hlast, hrtr⟩ := hr.token
  have hagain : turn s.visits - 1 = i → t = d'.lastToken → ∃ t₀ : Token n, Current s ds t₀ ∧
      ∃ rtr retrans, t = { t₀ with rtr, retrans } ∧ (rtr = t₀.rtr ∨ rtr = []) :=
    fun hi h ↦ ⟨(ds i).lastToken, Or.inl (by rw [hi]), rtr, retrans, h.trans hlast, hrtr⟩
  rcases ht with ht | ht
  · change t = (Function.update ds i d' (turn s.visits - 1)).lastToken at ht
    by_cases hi : turn s.visits - 1 = i
    · exact hagain hi (by rwa [hi, Function.update_self] at ht)
    · rw [Function.update_of_ne hi] at ht
      exact ⟨t, Or.inl ht, t.rtr, t.retrans, rfl, Or.inl rfl⟩
  · rcases List.mem_append.mp ht with ht | ht
    · exact ⟨t, Or.inr ht, t.rtr, t.retrans, rfl, Or.inl rfl⟩
    · obtain ⟨t', ht', heq⟩ := List.mem_map.mp ht
      rw [Prod.mk.injEq, Prod.mk.injEq] at heq
      obtain ⟨hi, -, rfl⟩ := heq
      exact hagain hi.symm (htok t' ht')

/-- **Between the visits** the invariant is kept, whatever is submitted. -/
theorem Inv.replace (h : Inv s ds holds) (hr : Replaces s.log (ds i) d') {sub : List (DownLink β)}
    (hsub : Sender s.log sub d') {out : Output n β} (hout : out.packets = [])
    (htok : ∀ t ∈ out.tokens, t = d'.lastToken) :
    Inv { s.emit i (d', out) with submitted := Function.update s.submitted i sub }
      (Function.update ds i d') holds := by
  obtain ⟨rtr, retrans, hlast, hrtr⟩ := hr.token
  constructor
  case daemon =>
      intro j
      by_cases hj : j = i
      · simp [Ring.emit, hj]
      · simpa [Ring.emit, hj] using h.daemon j
  case my_id => exact forall_update (P := fun j d ↦ d.my.id = j) (hr.my ▸ h.my_id i) h.my_id
  case wellFormed => exact h.wellFormed
  case packets => simpa [Ring.emit, hout] using h.packets
  case consistent =>
      exact forall_update (P := fun _ d ↦ Consistent s.log d) hr.consistent h.consistent
  case discarded =>
      refine forall_update (P := fun _ d ↦ d.lastDiscarded = d.aru) ?_ h.discarded
      rw [hr.discarded, h.discarded, hr.aru]
  case sender =>
      intro j
      by_cases hj : j = i
      · subst hj
        simpa [Ring.emit] using hsub
      · simpa [Ring.emit, hj] using h.sender j
  case window =>
      exact forall_update (P := fun _ d ↦ s.log.length ≤ d.aru + maxSeqGap + maxNew)
        (hr.aru ▸ h.window i) h.window
  case fits => exact h.fits
  case arq =>
      refine forall_update (P := fun j d ↦ d.lastToken.arq = rounds s.visits j % 16) ?_ h.arq
      rw [hlast]
      exact h.arq i
  case tokens =>
      intro p hp
      rcases List.mem_append.mp hp with hp | hp
      · exact h.tokens p hp
      · obtain ⟨t, ht, rfl⟩ := List.mem_map.mp hp
        refine ⟨le_rfl, ?_⟩
        rw [htok t ht, hlast]
        exact h.arq i
  case carries =>
      intro t ht
      obtain ⟨t₀, ht₀, rtr', retrans', rfl, hrtr'⟩ := hr.current htok ht
      obtain ⟨hseq, hsound, hmarked, hreq⟩ := h.carries t₀ ht₀
      have hle : d'.myAru ≤ t₀.seq := by
        have hmy := hr.consistent.slots.myAru_le
        have hhigh := hr.consistent.slots.highest_le
        omega
      have hscheme : scheme
          { s.emit i (d', out) with submitted := Function.update s.submitted i sub }
          (Function.update ds i d') holds { t₀ with rtr := rtr', retrans := retrans' } =
            (scheme s ds holds _).receive i d'.myAru := hr.scheme_eq rfl _
      refine ⟨hseq, ?_, ?_, fun rtr hmem seq hseq ↦ ?_⟩
      · rw [hscheme]
        exact hsound.receive hr.myAru_le hle
      · rw [hscheme]
        exact hmarked.receive i _
      · have haru : (Function.update ds i d' (turn s.visits - 1)).lastToken.aru =
            (ds (turn s.visits - 1)).lastToken.aru := by
          by_cases hi : turn s.visits - 1 = i
          · rw [hi, Function.update_self, hlast]
          · rw [Function.update_of_ne hi]
        refine haru.trans_le ?_
        rcases hrtr' with rfl | rfl
        · exact hreq rtr hmem seq hseq
        · cases hmem

/-! ## The visits of the token -/

/-- The daemon whose turn it is can handle a token of this round. -/
theorem Inv.ready (h : Inv s ds holds) (ht : Current s ds t)
    (hroom : s.log.length + maxPacketsInStruct ≤ maxInt32)
    (hcount : ∀ i, ∀ d ∈ (s.daemon i).toOption, d.tokenCounter < maxInt32) :
    Ready s.log (s.submitted (turn s.visits)) (scheme s ds holds t) (ds (turn s.visits)) t := by
  obtain ⟨hseq, hsound, -, hreq⟩ := h.carries t ht
  have hid := h.my_id (turn s.visits)
  constructor
  case wellFormed => exact h.wellFormed
  case consistent => exact h.consistent _
  case sender => exact h.sender _
  case shows => exact ⟨by rw [hid]; rfl, by rw [hid]; rfl, rfl, rfl, rfl⟩
  case seq => exact hseq
  case discarded => exact h.discarded _
  case requests =>
      have hleft := hsound.stable_le_left (turn s.visits) (turn s.visits - 1)
      exact fun rtr hmem seq hseq ↦ Nat.le_trans hleft (hreq rtr hmem seq hseq)
  case stable_left => exact hsound.stable_le_left _ _
  case stable_aru => exact hsound.stable_le_aru _
  case window => exact h.window _
  case room => exact hroom
  case counter => exact hcount _ _ (h.mem_toOption _)

/-- Only a daemon that is alone in keeping the number down raises it. -/
theorem Inv.unheld_of_raises (h : Inv s ds holds) (ht : Current s ds t) {rest : List (Fin n)}
    (ho : order s.visits = turn s.visits :: rest)
    (halone : (ds (turn s.visits)).setAru = some t.aru →
      ∀ j, j ≠ turn s.visits → (ds j).setAru = none)
    (hr : (scheme s ds holds t).Raises (turn s.visits)) : ∀ j ∈ rest, ¬holds j := by
  obtain ⟨-, hsound, hmarked, -⟩ := h.carries t ht
  refine hmarked.unheld_of_raises ho (fun hmark _ j hj hheld ↦ ?_) hr
  obtain ⟨m, hm, -⟩ := hmarked.held j hheld
  have hnone : (scheme s ds holds t).mark j = none :=
    halone hmark j (hsound.ne_of_mem (x := turn s.visits) ho hj)
  rw [hnone] at hm
  cases hm

/-- The ring after a visit of the token. -/
def visited (s : Ring n β) (d' : Daemon n β) (out : Output n β) (created : List (Packet n β)) :
    Ring n β :=
  { s with visits := s.visits + 1, log := s.log ++ created }.emit (turn s.visits) (d', out)

variable {out : Output n β} {created : List (Packet n β)}

/-- In the scheme the token has visited the daemon. -/
theorem Visited.scheme_eq {A : Aru.State (Fin n)} {submitted : List (DownLink β)}
    {rest : List (Fin n)} (hA : A = scheme s ds holds t)
    (hid : (ds (turn s.visits)).my.id = turn s.visits)
    (hv : Visited s.log submitted A (ds (turn s.visits)) t d' out created)
    (ho : order (s.visits + 1) = rest ++ [turn s.visits]) {t' : Token n} (ht' : t' = d'.lastToken) :
    scheme (visited s d' out created) (Function.update ds (turn s.visits) d')
      (Function.update holds (turn s.visits)
        (A.Writes (turn s.visits) d'.myAru ∧ d'.myAru < (s.log ++ created).length)) t' =
      A.visit (turn s.visits) rest d'.myAru (s.log ++ created).length := by
  subst ht'
  have hcongr : ∀ {γ : Type} (f : Daemon n β → γ),
      (fun j ↦ f (Function.update ds (turn s.visits) d' j)) =
        Function.update (fun j ↦ f (ds j)) (turn s.visits) (f d') := fun f ↦ by
    funext j
    by_cases hj : j = turn s.visits
    · simp [hj]
    · simp [hj]
  have hleft := hv.tokenAru
  have hstable := hv.aru
  have hmark := hv.setAru
  have hlast := hv.last
  rw [hid] at hleft hstable hmark hlast
  unfold Aru.State.visit
  rw [← hstable, ← hleft, ← hmark, ← hlast, ← ho, ← hv.seq]
  subst hA
  unfold scheme
  rw [hcongr Daemon.myAru, hcongr Daemon.aru, hcongr Daemon.setAru,
    hcongr fun d ↦ d.lastToken.aru]
  rfl

/-- A token of the round that begins is the one that the daemon passes on. -/
theorem Inv.current_visited (h : Inv s ds holds) (htok : ∀ t ∈ out.tokens, t = d'.lastToken)
    {t' : Token n}
    (ht' : Current (visited s d' out created) (Function.update ds (turn s.visits) d') t') :
    t' = d'.lastToken := by
  have hprev : (turn (s.visits + 1) - 1 : Fin n) = turn s.visits := by
    rw [turn_succ, add_sub_cancel_right]
  rcases ht' with ht' | ht'
  · change t' = (Function.update ds (turn s.visits) d' (turn (s.visits + 1) - 1)).lastToken at ht'
    rwa [hprev, Function.update_self] at ht'
  · rcases List.mem_append.mp ht' with ht' | ht'
    · have hle := (h.tokens _ ht').1
      change rounds (s.visits + 1) (turn (s.visits + 1) - 1 : Fin n) ≤
        rounds s.visits (turn (s.visits + 1) - 1) at hle
      rw [hprev, rounds_succ, if_pos rfl] at hle
      omega
    · obtain ⟨t'', ht'', heq⟩ := List.mem_map.mp ht'
      rw [Prod.mk.injEq, Prod.mk.injEq] at heq
      rw [← heq.2.2]
      exact htok t'' ht''

/-- The daemon remembers the round that it had its turn in. -/
theorem Inv.arq_visited (h : Inv s ds holds) (ht : Current s ds t) {A : Aru.State (Fin n)}
    {submitted : List (DownLink β)}
    (hv : Visited s.log submitted A (ds (turn s.visits)) t d' out created) (j : Fin n) :
    (Function.update ds (turn s.visits) d' j).lastToken.arq = rounds (s.visits + 1) j % 16 := by
  rw [rounds_succ]
  by_cases hj : j = turn s.visits
  · have htarq : t.arq = rounds s.visits (turn s.visits - 1 : Fin n) % 16 := by
      rcases ht with rfl | ht
      · exact h.arq _
      · exact (h.tokens _ ht).2
    have hpred := rounds_pred s.visits (turn s.visits - 1 : Fin n)
    rw [sub_add_cancel, if_pos (c := turn s.visits = turn s.visits) rfl] at hpred
    rw [if_pos hj, hj, Function.update_self, hv.arq, Daemon.isLeader, h.my_id, htarq]
    by_cases hzero : (turn s.visits : Fin n) = 0
    · rw [if_pos hzero] at hpred
      rw [if_pos (by simpa using hzero)]
      omega
    · rw [if_neg hzero] at hpred
      rw [if_neg (by simpa using hzero)]
      omega
  · rw [if_neg hj, Function.update_of_ne hj]
    exact h.arq j

/-- Up to which number the daemon has received everything when it passes the token on. -/
theorem Visited.myAru_le_length {A : Aru.State (Fin n)} {submitted : List (DownLink β)}
    {d : Daemon n β} (hv : Visited s.log submitted A d t d' out created) :
    d'.myAru ≤ (s.log ++ created).length :=
  hv.highest ▸ hv.consistent.slots.myAru_le

/-- The number of packets has not become less. -/
theorem Carries.seq_le (hc : Carries s ds holds t) (created : List (Packet n β)) :
    t.seq ≤ (s.log ++ created).length := by
  rw [hc.seq, List.length_append]
  exact Nat.le_add_right _ _

/-- The token that a daemon passes on carries what a token does, if the number on it is raised only
by a daemon that is alone in keeping it down. -/
theorem Inv.carries_visited (h : Inv s ds holds) (ht : Current s ds t)
    (hv : Visited s.log (s.submitted (turn s.visits)) (scheme s ds holds t)
      (ds (turn s.visits)) t d' out created)
    (halone : (ds (turn s.visits)).setAru = some t.aru →
      ∀ j, j ≠ turn s.visits → (ds j).setAru = none) {t' : Token n} (heq : t' = d'.lastToken) :
    Carries (visited s d' out created) (Function.update ds (turn s.visits) d')
      (Function.update holds (turn s.visits)
        ((scheme s ds holds t).Writes (turn s.visits) d'.myAru ∧
          d'.myAru < (s.log ++ created).length)) t' := by
  obtain ⟨rest, ho, ho'⟩ := order_eq (n := n) s.visits
  have hcarries := h.carries t ht
  have hid := h.my_id (turn s.visits)
  have hraises := h.unheld_of_raises ht ho halone
  have hscheme := Visited.scheme_eq rfl hid hv ho' heq
  constructor
  case seq =>
      rw [heq]
      exact hv.seq
  case sound =>
      rw [hscheme]
      exact hcarries.sound.visit ho hv.myAru_le hv.myAru_le_length (hcarries.seq_le created) hraises
  case marked =>
      rw [hscheme]
      exact hcarries.marked.visit (m := d'.myAru) hcarries.sound ho (hcarries.seq_le created)
        hraises
  case requests =>
      intro rtr hmem seq hseq
      have hlow := hv.requests rtr (heq ▸ hmem) seq hseq
      have hprev : (turn (s.visits + 1) - 1 : Fin n) = turn s.visits := by
        rw [turn_succ, add_sub_cancel_right]
      change (Function.update ds _ d' (turn (s.visits + 1) - 1)).lastToken.aru ≤ seq
      rw [hprev, Function.update_self, hv.tokenAru, hid]
      exact Nat.le_trans (Aru.State.passed_le _ _ _) hlow.le

/-- The window is kept by a visit. -/
theorem Inv.window_visited (h : Inv s ds holds) (ht : Current s ds t)
    (hv : Visited s.log (s.submitted (turn s.visits)) (scheme s ds holds t)
      (ds (turn s.visits)) t d' out created) (j : Fin n) :
    (s.log ++ created).length ≤
      (Function.update ds (turn s.visits) d' j).aru + maxSeqGap + maxNew := by
  obtain ⟨rest, ho, ho'⟩ := order_eq (n := n) s.visits
  obtain ⟨hseq, hsound, -, -⟩ := h.carries t ht
  have hold : ∀ i, (scheme s ds holds t).seq ≤
      (scheme s ds holds t).stable i + (maxSeqGap + maxNew) := fun i ↦ by
    change t.seq ≤ _
    rw [hseq, ← Nat.add_assoc]
    exact h.window i
  have hnew : (s.log ++ created).length ≤ (scheme s ds holds t).seq ∨
      (s.log ++ created).length ≤
        (scheme s ds holds t).stable (turn s.visits) + (maxSeqGap + maxNew) := by
    refine hv.few.imp (fun hnil ↦ ?_) fun hle ↦ ?_
    · rw [hnil, List.append_nil]
      exact hseq.ge
    · rwa [Nat.add_assoc] at hle
  have hwindow := hsound.window_visit ho hv.myAru_le hold hnew j
  rw [← Visited.scheme_eq rfl (h.my_id _) hv ho' rfl, ← Nat.add_assoc] at hwindow
  exact hv.seq ▸ hwindow

/-- **A visit** keeps the invariant if the number on the token is raised only by a daemon that is
alone in keeping it down. -/
theorem Inv.visit (h : Inv s ds holds) (ht : Current s ds t)
    (hv : Visited s.log (s.submitted (turn s.visits)) (scheme s ds holds t)
      (ds (turn s.visits)) t d' out created)
    (halone : (ds (turn s.visits)).setAru = some t.aru →
      ∀ j, j ≠ turn s.visits → (ds j).setAru = none) :
    Inv (visited s d' out created) (Function.update ds (turn s.visits) d')
      (Function.update holds (turn s.visits)
        ((scheme s ds holds t).Writes (turn s.visits) d'.myAru ∧
          d'.myAru < (s.log ++ created).length)) := by
  have hid := h.my_id (turn s.visits)
  have harq := h.arq_visited ht hv
  have hmine : ∀ j, j ≠ turn s.visits → ∀ p ∈ created, p.procId ≠ (ds j).my.id := by
    intro j hj p hp heq
    rw [hv.mine p hp, hid, h.my_id] at heq
    exact hj heq.symm
  constructor
  case daemon =>
      intro j
      by_cases hj : j = turn s.visits
      · simp [visited, Ring.emit, hj]
      · simpa [visited, Ring.emit, hj] using h.daemon j
  case my_id => exact forall_update (P := fun j d ↦ d.my.id = j) (hv.my ▸ hid) h.my_id
  case wellFormed => exact hv.wellFormed
  case packets =>
      intro ps hps p hp
      rcases List.mem_append.mp hps with hps | hps
      · exact List.mem_append_left _ (h.packets ps hps p hp)
      · exact hv.sent ps hps p hp
  case consistent =>
      intro j
      by_cases hj : j = turn s.visits
      · subst hj
        rw [Function.update_self]
        exact hv.consistent
      · rw [Function.update_of_ne hj]
        exact (h.consistent j).append hv.wellFormed (hmine j hj)
  case discarded =>
      exact forall_update (P := fun _ d ↦ d.lastDiscarded = d.aru) hv.discarded h.discarded
  case sender =>
      intro j
      by_cases hj : j = turn s.visits
      · subst hj
        simpa [visited, Ring.emit] using hv.sender
      · simpa [visited, Ring.emit, hj] using (h.sender j).append (hmine j hj)
  case window => exact h.window_visited ht hv
  case fits => exact hv.fits
  case arq => exact harq
  case tokens =>
      intro p hp
      rcases List.mem_append.mp hp with hp | hp
      · have hgrow : rounds s.visits p.1 ≤ rounds (s.visits + 1) p.1 := by
          rw [rounds_succ]
          split <;> omega
        exact ⟨Nat.le_trans (h.tokens p hp).1 hgrow, (h.tokens p hp).2⟩
      · obtain ⟨t', ht', rfl⟩ := List.mem_map.mp hp
        refine ⟨le_rfl, ?_⟩
        have hlast := harq (turn s.visits)
        rw [Function.update_self] at hlast
        exact hv.tokens t' ht' ▸ hlast
  case carries =>
      exact fun t' ht' ↦ h.carries_visited ht hv halone (h.current_visited hv.tokens ht')

/-! ## The start -/

/-- The daemons at the start of a membership. -/
def starting (segIndex : Fin n → ℕ) (visits : ℕ) (first : Token n) (i : Fin n) : Daemon n β :=
  .start ⟨i, segIndex i⟩ { first with arq := rounds visits i % 16, seq := 0, aru := 0, rtr := [] }

omit [NeZero n] in
theorem Consistent.start (my : Proc n) (lastToken : Token n) :
    Consistent ([] : List (Packet n β)) (.start my lastToken) where
  slots := {
    stored := fun _ _ h ↦ nomatch h
    window := Nat.zero_le _
    highest_le := le_rfl
    received := fun _ hlow hle ↦ absurd (hlow.trans_le hle) (Nat.lt_irrefl _)
    discarded_le := le_rfl
    delivered_le := le_rfl
    myAru_le := le_rfl
    delivered := fun _ _ h ↦ nomatch h
    early := fun _ _ h ↦ nomatch h }
  handed := {
    up := fun _ ↦ rfl
    upSingle := rfl
    ordered := rfl
    single := fun _ _ ↦ ⟨(nomatch ·), fun ⟨_, h, _⟩ ↦ nomatch h⟩
    nodup := List.nodup_nil }
  safe := fun _ h ↦ nomatch h
  own := ⟨fun _ ↦ (nomatch ·), fun _ ↦ (nomatch ·), le_rfl⟩

/-- The tokens at the start are the first token, with the number that it carries or with 0. -/
theorem current_start {segIndex : Fin n → ℕ} {visits : ℕ} {first : Token n}
    (ht : Current (Ring.start segIndex visits first : Ring n β)
      (starting segIndex visits first) t) :
    t.seq = 0 ∧ (t.aru = 0 ∨ t.aru = first.aru) ∧ t.aruLastId = first.aruLastId ∧ t.rtr = [] := by
  rcases ht with rfl | ht
  · exact ⟨rfl, Or.inl rfl, rfl, rfl⟩
  · rw [Ring.start, List.mem_singleton, Prod.mk.injEq, Prod.mk.injEq] at ht
    rw [ht.2.2]
    exact ⟨rfl, Or.inr rfl, rfl, rfl⟩

theorem scheme_start {segIndex : Fin n → ℕ} {visits : ℕ} {first : Token n} (hseq : t.seq = 0) :
    scheme (Ring.start segIndex visits first : Ring n β) (starting segIndex visits first)
      (fun _ ↦ False) t = Aru.start (order visits) t.aru t.aruLastId := by
  unfold scheme
  rw [hseq]
  rfl

theorem Inv.start (segIndex : Fin n → ℕ) (visits : ℕ) (first : Token n) :
    Inv (Ring.start segIndex visits first : Ring n β) (starting segIndex visits first)
      fun _ ↦ False where
  daemon _ := rfl
  my_id _ := rfl
  wellFormed := WellFormed.nil
  packets _ h := nomatch h
  consistent _ := Consistent.start _ _
  discarded _ := rfl
  sender _ := ⟨rfl, fun _ ↦ (nomatch ·), fun _ ↦ rfl, rfl⟩
  window _ := Nat.zero_le _
  fits := by
    change 0 < maxInt32
    decide
  arq _ := rfl
  tokens p hp := by
    rw [Ring.start, List.mem_singleton] at hp
    rw [hp]
    exact ⟨le_rfl, rfl⟩
  carries t ht := by
    obtain ⟨hseq, -, -, hrtr⟩ := current_start ht
    refine ⟨hseq, ?_, ?_, by simp [hrtr]⟩
    · rw [scheme_start hseq]
      exact Aru.Sound.start (nodup_order visits) (mem_order visits)
    · rw [scheme_start hseq]
      exact Aru.Marked.start

/-! ## Steps -/

/-- A daemon sends nothing but the token that it passed on, and is otherwise as in
`Replaces`. -/
structure Resends (log : List (Packet n β)) (sub : List (DownLink β)) (d : Daemon n β)
    (r : Daemon n β × Output n β) : Prop where
  replaces : Replaces log d r.1
  sender : Sender log sub r.1
  packets : r.2.packets = []
  tokens : ∀ t ∈ r.2.tokens, t = r.1.lastToken

variable {log : List (Packet n β)} {sub : List (DownLink β)} {d : Daemon n β}

omit [NeZero n] in
/-- Another queue, or a token without requests. -/
theorem Replaces.of_eq (hd : Consistent log d) {downQueue : List (DownLink β)}
    {rtr : List (RingRtr n)} {retrans : ℕ} (hrtr : rtr = d.lastToken.rtr ∨ rtr = []) :
    Replaces log d { d with downQueue, lastToken := { d.lastToken with rtr, retrans } } :=
  ⟨rfl, ⟨{ hd.slots with }, { hd.handed with }, hd.safe, { hd.own with }⟩, rfl, rfl, rfl,
    List.prefix_rfl, le_rfl,
    rtr, retrans, rfl, hrtr⟩

/-- `Prot_token_hurry`. -/
theorem protTokenHurry_resends (hd : Consistent log d) (hs : Sender log sub d) :
    Resends log sub d d.protTokenHurry :=
  ⟨Replaces.of_eq hd (Or.inr rfl), hs.congr rfl rfl rfl, rfl,
    fun _ ht ↦ (List.mem_replicate.mp ht).2⟩

omit [NeZero n] in
/-- Nothing happens. -/
theorem Resends.refl (hd : Consistent log d) (hs : Sender log sub d) :
    Resends log sub d (d, {}) :=
  ⟨Replaces.of_eq hd (Or.inl rfl), hs, rfl, fun _ ht ↦ nomatch ht⟩

/-- `Handle_hurry`. -/
theorem handleHurry_resends (hd : Consistent log d) (hs : Sender log sub d) :
    Resends log sub d d.handleHurry := by
  unfold Daemon.handleHurry
  split
  · exact protTokenHurry_resends hd hs
  · exact Resends.refl hd hs

omit [NeZero n] in
/-- One more message to send. -/
theorem Sender.submit (hs : Sender log sub d) (m : DownLink β) :
    Sender log (sub ++ [m]) { d with downQueue := d.downQueue ++ [m] } := by
  refine ⟨?_, ?_, fun h ↦ ?_, ?_⟩
  · rw [hs.up]
    cases hq : d.downQueue with
    | nil => simp [hs.cur_nil hq]
    | cons m' rest => rfl
  · cases hq : d.downQueue with
    | nil =>
        intro m' hm'
        rw [hs.cur_nil hq]
        exact List.length_pos_iff.mpr m'.elements_ne
    | cons m' rest => exact fun m'' h ↦ hs.cur_lt m'' (by rw [hq]; exact h)
  · simp at h
  · simp only [List.map_append, ← List.append_assoc]
    rw [hs.sent]

/-- `Prot_new_message`. -/
theorem protNewMessage_resends (hd : Consistent log d) (hs : Sender log sub d) (m : DownLink β) :
    Resends log (sub ++ [m]) d (d.protNewMessage m) := by
  have hd' : Consistent log { d with downQueue := d.downQueue ++ [m] } :=
    ⟨{ hd.slots with }, { hd.handed with }, hd.safe, { hd.own with }⟩
  have hs' := hs.submit m
  have hstep : Replaces log d { d with downQueue := d.downQueue ++ [m] } :=
    Replaces.of_eq hd (Or.inl rfl)
  unfold Daemon.protNewMessage
  dsimp only
  split
  · split
    · obtain ⟨hr, hsender, hpk, htok⟩ := handleHurry_resends hd' hs'
      exact ⟨{ hr with }, hsender, hpk, htok⟩
    · exact ⟨hstep, hs', rfl, fun _ h ↦ absurd h List.not_mem_nil⟩
  · exact ⟨hstep, hs', rfl, fun _ h ↦ absurd h List.not_mem_nil⟩

omit [NeZero n] in
/-- Packets that arrive. -/
theorem Receives.resends (hr : Receives log d d') (hs : Sender log sub d) :
    Resends log sub d (d', {}) := by
  have hfield : ∀ {α : Type} (f : Daemon n β → α), (∀ d : Daemon n β, f d.standing = f d) →
      f d' = f d := fun f hf ↦ Daemon.eq_of_standing f hf hr.standing
  refine ⟨⟨hfield Daemon.my fun _ ↦ rfl, hr.consistent, hfield Daemon.aru fun _ ↦ rfl,
    hr.lastDiscarded, hfield Daemon.setAru fun _ ↦ rfl, hr.messages,
    hr.myAru_le, _, _,
    hfield Daemon.lastToken fun _ ↦ rfl, Or.inl rfl⟩, ?_, rfl, fun _ ↦ (nomatch ·)⟩
  exact hs.congr (hfield Daemon.my fun _ ↦ rfl)
    (Daemon.eq_of_standing Daemon.downQueue (fun _ ↦ rfl) hr.standing)
    (hfield Daemon.curElement fun _ ↦ rfl)

/-- What an event can do to the ring: a daemon receives packets or sends its token again, or the
token visits the daemon whose turn it is. -/
inductive Moves (s : Ring n β) (ds : Fin n → Daemon n β) (holds : Fin n → Prop) :
    Event n β → Ring n β → Prop where
  | resend {e : Event n β} (i : Fin n) (r : Daemon n β × Output n β) (sub : List (DownLink β))
      (hr : Resends s.log sub (ds i) r) :
      Moves s ds holds e { s.emit i r with submitted := Function.update s.submitted i sub }
  | visit (k : ℕ) (results : List Bool) (p : Fin n × ℕ × Token n) (hp : s.tokens[k]? = some p)
      (hturn : p.1 + 1 = turn s.visits) (hc : Current s ds p.2.2)
      (hh : (ds (turn s.visits)).verdict p.2.2 = .handle)
      (r : Daemon n β × Output n β × List (Packet n β))
      (hv : Visited s.log (s.submitted (turn s.visits)) (scheme s ds holds p.2.2)
        (ds (turn s.visits)) p.2.2 r.1 r.2.1 r.2.2) :
      Moves s ds holds (.token k results) (visited s r.1 r.2.1 r.2.2)

variable [Payload β] {s' : Ring n β} {e : Event n β}

omit [Payload β] in
/-- The case of a daemon to which no message is handed. -/
theorem Moves.emit {r : Daemon n β × Output n β} (hr : Resends s.log (s.submitted i) (ds i) r) :
    Moves s ds holds e (s.emit i r) := by
  have heq : s.emit i r =
      { s.emit i r with submitted := Function.update s.submitted i (s.submitted i) } := by
    rw [Function.update_eq_self]
    rfl
  rw [heq]
  exact Moves.resend i r _ hr

omit [Payload β] in
/-- A packet that arrives. -/
theorem Inv.moves_packets (h : Inv s ds holds) {ps : List (Packet n β)} (hps : ps ∈ s.packets) :
    Moves s ds holds e
      { s with daemon := Function.update s.daemon i ((ds i).protHandleBcast ps) } := by
  have hbound : maxSeqGap + maxNew ≤ maxPacketsInStruct := by decide
  have hdisc := h.discarded i
  have hwindow := h.window i
  obtain ⟨d', heq, hr⟩ := protHandleBcast_returns h.wellFormed (h.consistent i)
    (h.packets ps hps) hdisc.le (by omega)
  have hstate : { s with daemon := Function.update s.daemon i ((ds i).protHandleBcast ps) } =
      s.emit i (d', {}) := by simp [heq, Ring.emit]
  rw [hstate]
  exact Moves.emit (hr.resends (h.sender i))

/-- A token that arrives. -/
theorem Inv.moves_token (h : Inv s ds holds) {k : ℕ} {results : List Bool}
    {p : Fin n × ℕ × Token n} (hp : s.tokens[k]? = some p)
    (hfresh : rounds s.visits p.1 < p.2.1 + 15) (hfits : Fits s (.token k results)) :
    Moves s ds holds (.token k results)
      (s.arrive (p.1 + 1) (ds (p.1 + 1)) p.2.2 results) := by
  unfold Ring.arrive Daemon.protHandleToken
  cases hv : (ds (p.1 + 1)).verdict p.2.2 with
  | swallow =>
      have hmoves : Moves s ds holds (.token k results)
          (s.emit (p.1 + 1) (ds (p.1 + 1), {})) :=
        Moves.emit (Resends.refl (h.consistent _) (h.sender _))
      simpa using hmoves
  | resend retrans =>
      have hd : Consistent s.log { ds (p.1 + 1) with
          lastToken := { (ds (p.1 + 1)).lastToken with retrans } } :=
        ⟨{ (h.consistent _).slots with }, { (h.consistent _).handed with }, (h.consistent _).safe,
          { (h.consistent _).own with }⟩
      obtain ⟨hr, hsender, hpk, htok⟩ :=
        protTokenHurry_resends hd ((h.sender (p.1 + 1)).congr rfl rfl rfl)
      have hmoves : Moves s ds holds (.token k results) (s.emit (p.1 + 1) _) :=
        Moves.emit ⟨{ hr with }, hsender, hpk, htok⟩
      simpa using hmoves
  | handle =>
      obtain ⟨i, r, t⟩ := p
      obtain ⟨hturn, hc⟩ := h.current_of_handle (List.mem_of_getElem? hp) hfresh hv
      obtain ⟨res, heq, hvisited⟩ :=
        handleToken_returns (h.ready hc hfits.2.1 hfits.2.2) hfits.1
      dsimp only at hturn hv ⊢
      rw [hturn, heq]
      simp only [if_true]
      exact Moves.visit k results _ hp hturn hc (hturn ▸ hv) res hvisited

/-- **What an event can do**, if no token that arrives is fifteen rounds old and the numbers are
not exhausted. -/
theorem Inv.moves (h : Inv s ds holds) (hf : Fresh s e) (hfits : Fits s e)
    (hs : ring.step s e = some s') : Moves s ds holds e s' := by
  have hd : ∀ j, (s.daemon j).toOption = some (ds j) := h.mem_toOption
  cases e with
  | message i m =>
      obtain rfl : _ = s' := by simpa [ring, hd] using hs
      exact Moves.resend i _ _ (protNewMessage_resends (h.consistent i) (h.sender i) m)
  | packets i k =>
      obtain ⟨ps, hps, rfl⟩ : ∃ ps, s.packets[k]? = some ps ∧
          { s with daemon := Function.update s.daemon i ((ds i).protHandleBcast ps) } = s' := by
        simpa [ring, hd] using hs
      exact h.moves_packets (List.mem_of_getElem? hps)
  | token k results =>
      obtain ⟨p, hp, hs⟩ := Option.bind_eq_some_iff.mp hs
      rw [hd, Option.map_some, Option.some.injEq] at hs
      exact hs ▸ h.moves_token hp (hf p hp) hfits
  | hurry =>
      obtain ⟨-, rfl⟩ : s.hurried = true ∧ s.emit 0 (ds 0).handleHurry = s' := by
        simpa [ring, hd] using hs
      exact Moves.emit (handleHurry_resends (h.consistent 0) (h.sender 0))
  | timeout =>
      obtain rfl : _ = s' := by simpa [ring, hd] using hs
      exact Moves.emit (protTokenHurry_resends (h.consistent 0) (h.sender 0))

omit [Payload β] in
/-- What the sessions have been given stays with them. -/
theorem Moves.messages (hm : Moves s ds holds e s') (h : Inv s ds holds) {j : Fin n}
    {d d' : Daemon n β} (hd : s.daemon j = .ok d) (hd' : s'.daemon j = .ok d') :
    d.messages <+: d'.messages := by
  obtain rfl : ds j = d := Except.ok.inj ((h.daemon j).symm.trans hd)
  have hcases : ∀ {i : Fin n} {r : Daemon n β}, (ds i).messages <+: r.messages →
      Function.update s.daemon i (.ok r) j = .ok d' → (ds j).messages <+: d'.messages := by
    intro i r hmore hj
    by_cases hij : j = i
    · subst hij
      rw [Function.update_self] at hj
      exact Except.ok.inj hj ▸ hmore
    · rw [Function.update_of_ne hij] at hj
      rw [Except.ok.inj ((h.daemon j).symm.trans hj)]
  cases hm with
  | resend i r sub hr => exact hcases hr.replaces.messages hd'
  | visit k results p hp hturn hc hh r hv => exact hcases hv.messages hd'

/-! ## Runs -/

/-- The invariant of the ring, for the daemons that there are. -/
def Safe (s : Ring n β) : Prop := ∃ ds holds, Inv s ds holds

omit [Payload β] in
/-- One move. -/
theorem Inv.step (h : Inv s ds holds) (hm : Moves s ds holds e s') (ha : RaisesAlone s e) :
    Safe s' := by
  cases hm with
  | resend i r sub hr => exact ⟨_, _, h.replace hr.replaces hr.sender hr.packets hr.tokens⟩
  | visit k results p hp hturn hc hh r hv =>
      refine ⟨_, _, h.visit hc hv fun hset j hj ↦ ?_⟩
      rw [← hturn] at hset hj hh
      exact ha p hp _ (h.mem_toOption _) hh hset j hj _ (h.mem_toOption j)

theorem Safe.step (h : Safe s) (hc : Orderly s e) (hs : ring.step s e = some s') : Safe s' := by
  obtain ⟨ds, holds, h⟩ := h
  exact h.step (h.moves hc.fresh hc.fits hs) hc.raisesAlone

variable {segIndex : Fin n → ℕ} {visits : ℕ} {first : Token n} {es : List (Event n β)}

/-- **The invariant** holds at the end of every run. -/
theorem safe_of_run (hc : ring.Along Orderly (Ring.start segIndex visits first) es)
    (hr : ring.run (Ring.start segIndex visits first) es = some s) : Safe s :=
  Machine.run_invariant (fun _ _ _ ↦ Safe.step) ⟨_, _, Inv.start segIndex visits first⟩ hc hr

end Spread
