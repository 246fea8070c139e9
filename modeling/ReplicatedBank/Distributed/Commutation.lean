import Mathlib.Data.List.Nodup
import Mathlib.Data.List.Perm.Basic

/-!
# Independent events

Two orders of the same events that agree on every pair of dependent events are connected
by swaps of independent neighbours (`swaps_of_same_order`), so whatever does not change
under such a swap is the same for both (`Swaps.foldl_eq`).  This is the theorem that tells
which ordering guarantee a replicated object needs: the dependent pairs must be ordered in
the same way everywhere, and nothing else must.
-/

namespace Distributed

variable {α σ : Type*} {I : α → α → Prop} {xs ys zs : List α} {x y : α}

/-- Two lists of events that swaps of independent neighbours turn into each other. -/
inductive Swaps (I : α → α → Prop) : List α → List α → Prop
  /-- No swap. -/
  | refl (xs : List α) : Swaps I xs xs
  /-- Two independent neighbours at the front change places. -/
  | swap {x y : α} (xs : List α) : I x y → Swaps I (x :: y :: xs) (y :: x :: xs)
  /-- Swaps further back. -/
  | cons (x : α) {xs ys : List α} : Swaps I xs ys → Swaps I (x :: xs) (x :: ys)
  /-- One after the other. -/
  | trans {xs ys zs : List α} : Swaps I xs ys → Swaps I ys zs → Swaps I xs zs

/-- What commutes for independent events has the same result in both orders. -/
theorem Swaps.foldl_eq {f : σ → α → σ} (hf : ∀ x y, I x y → ∀ s, f (f s x) y = f (f s y) x)
    (h : Swaps I xs ys) (s : σ) : xs.foldl f s = ys.foldl f s := by
  induction h generalizing s with
  | refl xs => rfl
  | swap xs hxy =>
      rw [List.foldl_cons, List.foldl_cons, List.foldl_cons, List.foldl_cons, hf _ _ hxy]
  | cons x h ih => exact ih (f s x)
  | trans h₁ h₂ ih₁ ih₂ => exact (ih₁ s).trans (ih₂ s)

/-- An event moves to the front past events that are independent of it. -/
theorem Swaps.of_front (h : ∀ y ∈ xs, I x y) (zs : List α) :
    Swaps I (x :: xs ++ zs) (xs ++ x :: zs) := by
  induction xs with
  | nil => exact .refl _
  | cons y xs ih =>
      have hy : I x y := h y List.mem_cons_self
      exact (Swaps.swap _ hy).trans ((ih fun z hz ↦ h z (List.mem_cons_of_mem _ hz)).cons y)

/-! ## Orders that agree on dependent pairs

That `x` comes before `y` in `xs` is written `[x, y].Sublist xs`. -/

/-- Of two different events one comes first. -/
theorem not_before_both (hn : xs.Nodup) (hxy : [x, y].Sublist xs) : ¬ [y, x].Sublist xs := by
  intro hyx
  induction xs with
  | nil => cases hxy
  | cons z xs ih =>
      obtain ⟨hz, hn⟩ := List.nodup_cons.mp hn
      rcases List.sublist_cons_iff.mp hxy with hx | ⟨r, hr, hx⟩
      · rcases List.sublist_cons_iff.mp hyx with hy | ⟨r', hr', hy⟩
        · exact ih hn hx hy
        · obtain ⟨rfl, rfl⟩ := List.cons.inj hr'
          exact hz (hx.subset (List.mem_cons_of_mem x List.mem_cons_self))
      · obtain ⟨rfl, rfl⟩ := List.cons.inj hr
        rcases List.sublist_cons_iff.mp hyx with hy | ⟨r', hr', hy⟩
        · exact hz (hy.subset (List.mem_cons_of_mem y List.mem_cons_self))
        · obtain ⟨rfl, rfl⟩ := List.cons.inj hr'
          exact hz (hx.subset List.mem_cons_self)

/-- Two events stay in order when another one is taken out. -/
theorem before_of_before_middle {front back : List α} {z : α} (hx : x ≠ z) (hy : y ≠ z)
    (h : [x, y].Sublist (front ++ z :: back)) : [x, y].Sublist (front ++ back) := by
  classical
  have hpair : [x, y].filter (· ≠ z) = [x, y] := by simp [hx, hy]
  have hdrop : (front ++ z :: back).filter (· ≠ z) = (front ++ back).filter (· ≠ z) := by simp
  have hfilter := h.filter (· ≠ z)
  rw [hpair, hdrop] at hfilter
  exact hfilter.trans List.filter_sublist

/-- **Swaps suffice.**  A rearrangement of different events that keeps the order of every
dependent pair is made of swaps of independent neighbours. -/
theorem swaps_of_same_order (hp : xs.Perm ys) (hn : xs.Nodup)
    (h : ∀ x y, ¬ I x y → [x, y].Sublist xs → [x, y].Sublist ys) : Swaps I xs ys := by
  induction xs generalizing ys with
  | nil =>
      obtain rfl := hp.nil_eq
      exact .refl _
  | cons x xs ih =>
      obtain ⟨hx, hxs⟩ := List.nodup_cons.mp hn
      obtain ⟨front, back, rfl⟩ := List.append_of_mem (hp.subset List.mem_cons_self)
      have hys : (front ++ x :: back).Nodup := hp.nodup_iff.mp hn
      have hrest : xs.Perm (front ++ back) := (hp.trans List.perm_middle).cons_inv
      -- what comes before `x` in the one order only is independent of it
      have hfront : ∀ y ∈ front, I x y := by
        intro y hy
        by_contra hxy
        have hmem : y ∈ xs := hrest.symm.subset (List.mem_append_left _ hy)
        have hbefore : [x, y].Sublist (x :: xs) :=
          .cons_cons x (List.singleton_sublist.mpr hmem)
        refine not_before_both hys (h x y hxy hbefore) ?_
        exact (List.singleton_sublist.mpr hy).append
          (List.singleton_sublist.mpr List.mem_cons_self)
      have htail : ∀ u v, ¬ I u v → [u, v].Sublist xs → [u, v].Sublist (front ++ back) := by
        intro u v huv hbefore
        have hne : ∀ w ∈ [u, v], w ≠ x := fun w hw hwx ↦ hx (hwx ▸ hbefore.subset hw)
        exact before_of_before_middle (hne u (by simp)) (hne v (by simp))
          (h u v huv (hbefore.cons x))
      exact ((ih hrest hxs htail).cons x).trans (Swaps.of_front hfront back)

end Distributed
