import ReplicatedBank.Distributed.FirstCopies

/-!
# Interleavings of streams

`Interleaving streams r` says that `r` takes the messages of several streams one at a
time, each stream in its own order, until all of them are exhausted.  The streams are a
list, so that two senders may well send the same sequence.

When they all do, the interleaving repeats every message, and its first copies are the
common sequence (`Interleaving.firstCopies_eq`): a sender is always within the part of
the sequence that some sender has reached, so what is new is the next message of it.
-/

namespace Distributed

variable {α κ : Type*}

/-- `r` is made of the messages of the streams, each in its own order. -/
inductive Interleaving : List (List α) → List α → Prop
  /-- Nothing is left. -/
  | nil {streams : List (List α)} : (∀ l ∈ streams, l = []) → Interleaving streams []
  /-- The next message is the first one of some stream. -/
  | next {front back : List (List α)} {a : α} {l r : List α} :
      Interleaving (front ++ l :: back) r → Interleaving (front ++ (a :: l) :: back) (a :: r)

namespace Interleaving

variable {streams : List (List α)} {r : List α}

/-- A single stream. -/
theorem single (l : List α) : Interleaving [l] l := by
  induction l with
  | nil => exact .nil (by simp)
  | cons a l ih =>
      have ih : Interleaving ([] ++ l :: []) l := ih
      exact .next ih

/-- What is selected of an interleaving interleaves what is selected of the streams. -/
theorem filter (p : α → Bool) (h : Interleaving streams r) :
    Interleaving (streams.map (List.filter p)) (r.filter p) := by
  induction h with
  | nil hs =>
      refine .nil fun l hl ↦ ?_
      obtain ⟨l', hl', rfl⟩ := List.mem_map.mp hl
      rw [hs l' hl', List.filter_nil]
  | @next front back a l r h ih =>
      rw [List.map_append, List.map_cons] at ih ⊢
      by_cases hp : p a
      · rw [List.filter_cons_of_pos hp, List.filter_cons_of_pos hp]
        exact .next ih
      · rwa [List.filter_cons_of_neg hp, List.filter_cons_of_neg hp]

/-- The first message of an interleaving is the first one of a stream. -/
theorem exists_cons_mem {a : α} (h : Interleaving streams (a :: r)) :
    ∃ l, a :: l ∈ streams := by
  cases h with
  | next => exact ⟨_, List.mem_append_right _ List.mem_cons_self⟩

/-- An interleaving of streams that are not all empty is not empty. -/
theorem ne_nil (h : Interleaving streams r) {l : List α} (hl : l ∈ streams) (hne : l ≠ []) :
    r ≠ [] := by
  cases h with
  | nil hs => exact absurd (hs l hl) hne
  | next => exact List.cons_ne_nil _ _

variable [DecidableEq κ] {key : α → κ} {l : List α}

/-- With part of the common sequence kept, the rest of the streams completes it. -/
theorem foldl_keep_eq (h : Interleaving streams r) (hl : (l.map key).Nodup) {m : ℕ}
    (hs : ∀ s ∈ streams, ∃ k ≤ m, s = l.drop k) (hne : streams ≠ []) :
    r.foldl (keep key) (l.take m) = l := by
  induction h generalizing m with
  | nil hnil =>
      obtain ⟨s, hmem⟩ := List.exists_mem_of_ne_nil _ hne
      obtain ⟨k, hk, hdrop⟩ := hs s hmem
      rw [hnil s hmem] at hdrop
      have hlen : l.length ≤ m := Nat.le_trans (List.drop_eq_nil_iff.mp hdrop.symm) hk
      rw [List.foldl_nil, List.take_of_length_le hlen]
  | @next front back a t r h ih =>
      obtain ⟨k, hk, hdrop⟩ := hs (a :: t) (by simp)
      have hlt : k < l.length := by
        by_contra hc
        rw [List.drop_eq_nil_of_le (by omega)] at hdrop
        exact List.cons_ne_nil _ _ hdrop
      rw [List.drop_eq_getElem_cons hlt] at hdrop
      obtain ⟨rfl, rfl⟩ := List.cons.inj hdrop
      have hs' : ∀ m', k + 1 ≤ m' → m ≤ m' →
          ∀ s ∈ front ++ l.drop (k + 1) :: back, ∃ k' ≤ m', s = l.drop k' := by
        intro m' hm' hmm' s hmem
        rcases List.mem_append.mp hmem with hmem | hmem
        · obtain ⟨k', hk', h'⟩ := hs s (List.mem_append_left _ hmem)
          exact ⟨k', Nat.le_trans hk' hmm', h'⟩
        · rcases List.mem_cons.mp hmem with rfl | hmem
          · exact ⟨k + 1, hm', rfl⟩
          · obtain ⟨k', hk', h'⟩ := hs s (by simp [hmem])
            exact ⟨k', Nat.le_trans hk' hmm', h'⟩
      rw [List.foldl_cons]
      rcases Nat.lt_or_eq_of_le hk with hk | rfl
      · -- the message repeats one that is kept
        have hmem : l[k] ∈ l.take m := List.mem_take_iff_getElem.mpr ⟨k, by omega, rfl⟩
        rw [keep_of_mem (List.mem_map_of_mem hmem)]
        exact ih (hs' m (by omega) (Nat.le_refl _)) (by simp)
      · -- the message is the next one of the sequence
        have hnew : key l[k] ∉ (l.take k).map key := by
          rw [← List.take_append_drop k l, List.map_append, List.nodup_append,
            List.drop_eq_getElem_cons hlt, List.map_cons] at hl
          exact fun hc ↦ hl.2.2 _ hc _ List.mem_cons_self rfl
        rw [keep_of_notMem hnew, List.take_append_getElem]
        exact ih (hs' (k + 1) (Nat.le_refl _) (by omega)) (by simp)

/-- **Redundant transmission.**  Senders that all send the same sequence get it across
once. -/
theorem firstCopies_eq (h : Interleaving streams r) (hl : (l.map key).Nodup)
    (hs : ∀ s ∈ streams, s = l) (hne : streams ≠ []) : firstCopies key r = l := by
  have hkeep := h.foldl_keep_eq (m := 0) hl (fun s hmem ↦ ⟨0, Nat.le_refl _, hs s hmem⟩) hne
  rwa [List.take_zero] at hkeep

end Interleaving

end Distributed
