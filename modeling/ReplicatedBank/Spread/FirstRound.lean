import ReplicatedBank.Spread.Stability

/-!
# The first round of a membership

A daemon marks a number as its own when it keeps the number on the token down, with one
exception.  The first token carries what was in use in earlier memberships, so the daemon that has
it first lowers the number and marks what it has, whether it lacks anything or not.  At its second
visit it may find this number on the token again, and raise it though another daemon keeps it down.
All other marks are right (`Settles`), so there is no other visit at which this can happen
(`along_orderly_of_settling`).
-/

namespace Spread

open Distributed

variable {n : ℕ} {β : Type*}

variable [NeZero n] {s s' : Ring n β} {ds : Fin n → Daemon n β} {holds : Fin n → Prop}
variable {t : Token n} {i : Fin n} {d' : Daemon n β} {out : Output n β}
variable {created : List (Packet n β)} {segIndex : Fin n → ℕ} {visits : ℕ} {first : Token n}
variable {e : Event n β}

/-! ## Turns of one round -/

theorem turn_add_self (v : ℕ) : (turn (v + n) : Fin n) = turn v := by
  ext
  simp [val_turn]

/-- Turns that are less than a round apart are those of different daemons. -/
theorem turn_ne {u v : ℕ} (hlt : u < v) (hnear : v < u + n) : (turn v : Fin n) ≠ turn u := by
  intro heq
  have hmod := congrArg Fin.val heq
  rw [val_turn, val_turn] at hmod
  have hzero := Nat.sub_mod_eq_zero_of_mod_eq hmod
  rw [Nat.mod_eq_of_lt (by omega)] at hzero
  omega

/-! ## Marks -/

/-- The daemon that has the first token may take a number for its own up to its second visit. -/
def Stale (visits : ℕ) (first : Token n) (v : ℕ) (i : Fin n) : Prop :=
  ¬RegularStart visits first ∧ i = turn visits ∧ v ≤ visits + n

/-- The invariant of a run from a given start, with what is known of the marks. -/
structure Settles (visits : ℕ) (first : Token n) (s : Ring n β) (ds : Fin n → Daemon n β)
    (holds : Fin n → Prop) : Prop where
  inv : Inv s ds holds
  visits_le : visits ≤ s.visits
  /-- Only the first token carries more than is in use. -/
  aru_le : ∀ t, Current s ds t → t.aru ≤ t.seq ∨
    s.visits = visits ∧ (RegularStart visits first → t.aruLastId = some (turn visits))
  /-- Who has a mark keeps the number down. -/
  marks : ∀ i v, (ds i).setAru = some v → holds i ∨ Stale visits first s.visits i
  /-- Who has not had the token yet has no mark. -/
  unmarked : ∀ v, s.visits ≤ v → v < visits + n → (ds (turn v)).setAru = none

theorem Settles.start : Settles visits first (Ring.start segIndex visits first : Ring n β)
    (starting segIndex visits first) fun _ ↦ False where
  inv := Inv.start segIndex visits first
  visits_le := le_rfl
  aru_le t ht := by
    obtain ⟨hseq, haru, hlast, -⟩ := current_start ht
    by_cases hzero : t.aru = 0
    · exact Or.inl (hzero ▸ Nat.zero_le _)
    · refine Or.inr ⟨rfl, fun hfirst ↦ hlast.trans (hfirst.resolve_left fun hnone ↦ ?_)⟩
      exact hzero (haru.elim id fun haru ↦ haru.trans hnone)
  marks i v h := absurd h.symm (Option.some_ne_none v)
  unmarked _ _ _ := rfl

/-- Whoever raises the number is alone in keeping it down, except perhaps at one visit. -/
theorem Settles.raisesAlone (h : Settles visits first s ds holds) (hc : Settling visits first s e) :
    RaisesAlone s e := by
  obtain ⟨hf, -, hsecond⟩ := hc
  by_cases hstale : ∃ i, Stale visits first s.visits i
  · obtain ⟨-, hreg, -, hle⟩ := hstale
    rcases Nat.lt_or_eq_of_le hle with hlt | heq
    · cases e with
      | token k results =>
          intro p hp d hd hv hset
          obtain ⟨i, r, t⟩ := p
          obtain rfl : ds (i + 1) = d := Option.some.inj ((h.inv.mem_toOption _).symm.trans hd)
          obtain ⟨hturn, -⟩ := h.inv.current_of_handle (List.mem_of_getElem? hp) (hf _ hp) hv
          have hnone := h.unmarked s.visits le_rfl hlt
          rw [← hturn, hset] at hnone
          cases hnone
      | _ => trivial
    · exact hsecond heq hreg
  · cases e with
    | token k results =>
        intro p hp d hd hv hset j hj d' hd'
        obtain ⟨i, r, t⟩ := p
        obtain rfl : ds (i + 1) = d := Option.some.inj ((h.inv.mem_toOption _).symm.trans hd)
        obtain rfl : ds j = d' := Option.some.inj ((h.inv.mem_toOption _).symm.trans hd')
        obtain ⟨hturn, hc⟩ := h.inv.current_of_handle (List.mem_of_getElem? hp) (hf _ hp) hv
        obtain ⟨rest, ho, -⟩ := order_eq (n := n) s.visits
        obtain ⟨-, hsound, hmarked, -⟩ := h.inv.carries t hc
        rw [← hturn] at ho
        have hreg : Aru.Regular (scheme s ds holds t) (Stale visits first s.visits) := h.marks
        exact hreg.unmarked hmarked hsound ho hset (not_exists.mp hstale) hj
    | _ => trivial

/-- Between the visits. -/
theorem Settles.replace (h : Settles visits first s ds holds) {r : Daemon n β × Output n β}
    {sub : List (DownLink β)} (hr : Resends s.log sub (ds i) r) :
    Settles visits first { s.emit i r with submitted := Function.update s.submitted i sub }
      (Function.update ds i r.1) holds where
  inv := h.inv.replace hr.replaces hr.sender hr.packets hr.tokens
  visits_le := h.visits_le
  aru_le t ht := by
    obtain ⟨t₀, ht₀, rtr, retrans, rfl, -⟩ := hr.replaces.current hr.tokens ht
    exact h.aru_le t₀ ht₀
  marks := forall_update (P := fun i d ↦ ∀ v, d.setAru = some v → _)
    (hr.replaces.setAru ▸ h.marks i) h.marks
  unmarked v hv hlt := by
    by_cases hi : turn v = i
    · rw [hi, Function.update_self, hr.replaces.setAru, ← hi]
      exact h.unmarked v hv hlt
    · rw [Function.update_of_ne hi]
      exact h.unmarked v hv hlt

/-- A visit: from the first one on the token carries no more than is in use. -/
theorem Settles.visit (h : Settles visits first s ds holds) (ht : Current s ds t)
    (hv : Visited s.log (s.submitted (turn s.visits)) (scheme s ds holds t)
      (ds (turn s.visits)) t d' out created)
    (halone : (ds (turn s.visits)).setAru = some t.aru →
      ∀ j, j ≠ turn s.visits → (ds j).setAru = none) :
    Settles visits first (visited s d' out created) (Function.update ds (turn s.visits) d')
      (Function.update holds (turn s.visits)
        ((scheme s ds holds t).Writes (turn s.visits) d'.myAru ∧
          d'.myAru < (s.log ++ created).length)) := by
  obtain ⟨rest, ho, ho'⟩ := order_eq (n := n) s.visits
  constructor
  case inv => exact h.inv.visit ht hv halone
  case visits_le => exact Nat.le_succ_of_le h.visits_le
  case aru_le =>
      intro t' ht'
      rw [h.inv.current_visited hv.tokens ht', hv.tokenAru, hv.seq]
      exact Or.inl (((scheme s ds holds t).passed_le _ _).trans hv.myAru_le_length)
  case marks =>
      have hreg : Aru.Regular (scheme s ds holds t) (Stale visits first s.visits) := h.marks
      suffices hnext : Aru.Regular ((scheme s ds holds t).visit (turn s.visits) rest d'.myAru
          (s.log ++ created).length) (Stale visits first (s.visits + 1)) by
        rw [← Visited.scheme_eq rfl (h.inv.my_id _) hv ho' rfl] at hnext
        exact hnext
      refine hreg.visit ((h.inv.carries t ht).seq_le created) ?_
        fun i hi hstale ↦ ⟨hstale.1, hstale.2.1, ?_⟩
      · rcases h.aru_le t ht with hle | ⟨hfirst, hlast⟩
        · exact Or.inr (Or.inl hle)
        · by_cases hreg : RegularStart visits first
          · refine Or.inl (Or.inr (Or.inl ((hlast hreg).trans ?_)))
            rw [hfirst]
          · refine Or.inr (Or.inr ⟨hreg, by rw [hfirst], ?_⟩)
            have hpos := Nat.pos_of_neZero n
            omega
      · refine Nat.lt_of_le_of_ne hstale.2.2 fun heq ↦ hi ?_
        rw [heq, turn_add_self]
        exact hstale.2.1
  case unmarked =>
      intro v hlow hlt
      have hgrow := h.visits_le
      change (Function.update ds (turn s.visits) d' (turn v)).setAru = none
      rw [Function.update_of_ne (turn_ne hlow (by omega))]
      exact h.unmarked v (Nat.le_of_succ_le hlow) hlt

/-! ## Runs -/

variable [Payload β] {es : List (Event n β)}

/-- The invariant of a run from a given start, for the daemons that there are. -/
def SettlesSome (visits : ℕ) (first : Token n) (s : Ring n β) : Prop :=
  ∃ ds holds, Settles visits first s ds holds

omit [Payload β] in
theorem SettlesSome.raisesAlone (h : SettlesSome visits first s) (hc : Settling visits first s e) :
    RaisesAlone s e :=
  let ⟨_, _, h⟩ := h
  h.raisesAlone hc

theorem SettlesSome.step (h : SettlesSome visits first s) (hc : Settling visits first s e)
    (hs : ring.step s e = some s') : SettlesSome visits first s' := by
  have ha := h.raisesAlone hc
  obtain ⟨ds, holds, h⟩ := h
  cases h.inv.moves hc.1 hc.2.1 hs with
  | resend i r sub hr => exact ⟨_, _, h.replace hr⟩
  | visit k results p hp hturn hcurrent hh r hv =>
      refine ⟨_, _, h.visit hcurrent hv fun hset j hj ↦ ?_⟩
      rw [← hturn] at hset hj hh
      exact ha p hp _ (h.inv.mem_toOption _) hh hset j hj _ (h.inv.mem_toOption j)

/-- If the number is raised by a daemon that is alone in keeping it down at one visit, it is at
every visit. -/
theorem along_orderly_of_settling
    (hc : ring.Along (Settling visits first) (Ring.start segIndex visits first) es) :
    ring.Along Orderly (Ring.start segIndex visits first : Ring n β) es :=
  Machine.along_of_invariant (fun _ _ _ h hc hs ↦ SettlesSome.step h hc hs)
    (fun _ _ h hc ↦ ⟨hc.1, hc.2.1, SettlesSome.raisesAlone h hc⟩) ⟨_, _, Settles.start⟩ hc

end Spread
