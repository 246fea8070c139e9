import Mathlib.Data.List.Induction
import Mathlib.Data.List.Nodup

/-!
# First copies of keyed messages

A receiver that recognises repetitions by a key keeps, of everything delivered to
it, the first message of each key: `firstCopies key l`.  This file collects what
the rest needs about that list, and the combinatorics of *agreeing* first copies:
two duplicate-free lists are comparable in the prefix order exactly when no two
keys come up in opposite orders (`isPrefix_or_isPrefix_iff`).

The position of a key is `List.idxOf`, which is the length of the list for a key
that does not occur, so a key that is still missing counts as coming last.
-/

namespace Distributed

variable {α κ : Type*} [DecidableEq κ] (key : α → κ)

/-- Keep a message unless one with its key is already kept. -/
def keep (kept : List α) (a : α) : List α :=
  if key a ∈ kept.map key then kept else kept ++ [a]

/-- The first message of each key, in the order of these first occurrences. -/
def firstCopies (l : List α) : List α := l.foldl (keep key) []

variable {key} {l l' : List α} {a b : α} {k x y : κ}

theorem keep_of_mem (h : key a ∈ l.map key) : keep key l a = l := if_pos h

theorem keep_of_notMem (h : key a ∉ l.map key) : keep key l a = l ++ [a] := if_neg h

@[simp] theorem firstCopies_nil : firstCopies key [] = [] := rfl

theorem firstCopies_concat : firstCopies key (l ++ [a]) = keep key (firstCopies key l) a := by
  simp [firstCopies, List.foldl_append]

/-- Keeping the first copies forgets no key. -/
@[simp] theorem mem_map_firstCopies :
    k ∈ (firstCopies key l).map key ↔ k ∈ l.map key := by
  induction l using List.reverseRecOn with
  | nil => simp
  | append_singleton l a ih =>
      rw [firstCopies_concat, List.map_append, List.mem_append, ← ih]
      by_cases h : key a ∈ (firstCopies key l).map key
      · rw [keep_of_mem h]
        refine ⟨Or.inl, fun hk ↦ hk.elim id fun hk ↦ ?_⟩
        rw [List.map_singleton, List.mem_singleton] at hk
        exact hk ▸ h
      · rw [keep_of_notMem h, List.map_append, List.mem_append]

theorem firstCopies_concat_of_mem (h : key a ∈ l.map key) :
    firstCopies key (l ++ [a]) = firstCopies key l := by
  rw [firstCopies_concat, keep_of_mem (mem_map_firstCopies.mpr h)]

theorem firstCopies_concat_of_notMem (h : key a ∉ l.map key) :
    firstCopies key (l ++ [a]) = firstCopies key l ++ [a] := by
  rw [firstCopies_concat, keep_of_notMem (fun hk ↦ h (mem_map_firstCopies.mp hk))]

/-- Every key is kept once. -/
theorem nodup_map_firstCopies (l : List α) : ((firstCopies key l).map key).Nodup := by
  induction l using List.reverseRecOn with
  | nil => simp
  | append_singleton l a ih =>
      by_cases h : key a ∈ l.map key
      · rw [firstCopies_concat_of_mem h]
        exact ih
      · rw [firstCopies_concat_of_notMem h, List.map_append, List.nodup_append]
        refine ⟨ih, List.nodup_singleton _, ?_⟩
        intro k hk k' hk' heq
        rw [List.map_singleton, List.mem_singleton] at hk'
        exact h (mem_map_firstCopies.mp (hk' ▸ heq ▸ hk))

theorem firstCopies_sublist (l : List α) : (firstCopies key l).Sublist l := by
  induction l using List.reverseRecOn with
  | nil => simp
  | append_singleton l a ih =>
      by_cases h : key a ∈ l.map key
      · rw [firstCopies_concat_of_mem h]
        exact ih.trans (List.sublist_append_left _ _)
      · rw [firstCopies_concat_of_notMem h]
        exact ih.append (List.Sublist.refl _)

theorem mem_of_mem_firstCopies (h : a ∈ firstCopies key l) : a ∈ l :=
  (firstCopies_sublist l).subset h

/-- What is kept under a key is the first message with that key. -/
theorem find?_firstCopies (l : List α) (k : κ) :
    (firstCopies key l).find? (key · = k) = l.find? (key · = k) := by
  induction l using List.reverseRecOn with
  | nil => simp
  | append_singleton l a ih =>
      rw [List.find?_append, ← ih]
      by_cases h : key a ∈ l.map key
      · rw [firstCopies_concat_of_mem h]
        by_cases hk : key a = k
        · obtain ⟨b, hb, hbk⟩ := List.mem_map.mp (mem_map_firstCopies.mpr h)
          obtain ⟨c, hc⟩ := Option.isSome_iff_exists.mp
            (List.find?_isSome.mpr ⟨b, hb, by simpa using hbk.trans hk⟩ :
              ((firstCopies key l).find? (key · = k)).isSome)
          rw [hc]; rfl
        · simp [hk]
      · rw [firstCopies_concat_of_notMem h, List.find?_append]

/-- Two messages kept under one key are the same message. -/
theorem eq_of_mem_firstCopies (ha : a ∈ firstCopies key l) (hb : b ∈ firstCopies key l)
    (h : key a = key b) : a = b :=
  List.inj_on_of_nodup_map (nodup_map_firstCopies l) ha hb h

/-- A kept message is found under its key. -/
theorem find?_eq_of_mem_firstCopies (h : a ∈ firstCopies key l) :
    l.find? (key · = key a) = some a := by
  rw [← find?_firstCopies]
  cases hf : (firstCopies key l).find? (key · = key a) with
  | none => exact absurd (List.find?_eq_none.mp hf a h) (by simp)
  | some b =>
      have hb : key b = key a := by simpa using List.find?_some hf
      rw [eq_of_mem_firstCopies (List.mem_of_find?_eq_some hf) h hb]

/-- Messages whose keys have all been seen add nothing. -/
theorem firstCopies_append_of_subset (h : ∀ a ∈ l', key a ∈ l.map key) :
    firstCopies key (l ++ l') = firstCopies key l := by
  induction l' using List.reverseRecOn with
  | nil => simp
  | append_singleton l' a ih =>
      rw [← List.append_assoc, firstCopies_concat_of_mem, ih fun b hb ↦ h b (by simp [hb])]
      rw [List.map_append]
      exact List.mem_append_left _ (h a (by simp))

/-- Messages with keys of their own are all kept. -/
theorem firstCopies_append_of_nodup (h : (l'.map key).Nodup)
    (hd : ∀ a ∈ l', key a ∉ l.map key) : firstCopies key (l ++ l') = firstCopies key l ++ l' := by
  induction l' using List.reverseRecOn with
  | nil => simp
  | append_singleton l' a ih =>
      rw [List.map_append, List.map_singleton, List.nodup_append] at h
      have hnew : key a ∉ (l ++ l').map key := by
        rw [List.map_append, List.mem_append, not_or]
        exact ⟨hd a (by simp), fun hk ↦ h.2.2 _ hk _ (List.mem_singleton_self _) rfl⟩
      rw [← List.append_assoc, firstCopies_concat_of_notMem hnew,
        ih h.1 fun b hb ↦ hd b (by simp [hb]), List.append_assoc]

/-- What is kept is never given up. -/
theorem firstCopies_isPrefix (h : l <+: l') : firstCopies key l <+: firstCopies key l' := by
  obtain ⟨t, rfl⟩ := h
  induction t using List.reverseRecOn with
  | nil => simp
  | append_singleton t a ih =>
      refine ih.trans ?_
      rw [← List.append_assoc, firstCopies_concat, keep]
      split
      · exact List.prefix_rfl
      · exact List.prefix_append _ _

/-- Selecting by key and keeping first copies can be done in either order. -/
theorem firstCopies_filter {p : α → Bool} {q : κ → Bool} (h : ∀ a ∈ l, p a = q (key a)) :
    (firstCopies key l).filter p = firstCopies key (l.filter p) := by
  induction l using List.reverseRecOn with
  | nil => rfl
  | append_singleton l a ih =>
      have ih := ih fun b hb ↦ h b (by simp [hb])
      have hmem : p a → (key a ∈ (l.filter p).map key ↔ key a ∈ l.map key) := by
        intro hp
        refine ⟨fun hk ↦ ?_, fun hk ↦ ?_⟩
        · obtain ⟨b, hb, hbk⟩ := List.mem_map.mp hk
          exact List.mem_map.mpr ⟨b, (List.mem_filter.mp hb).1, hbk⟩
        · obtain ⟨b, hb, hbk⟩ := List.mem_map.mp hk
          refine List.mem_map.mpr ⟨b, List.mem_filter.mpr ⟨hb, ?_⟩, hbk⟩
          rw [h b (by simp [hb]), hbk, ← h a (by simp), hp]
      rw [List.filter_append]
      by_cases hp : p a
      · rw [List.filter_cons_of_pos hp, List.filter_nil]
        by_cases hk : key a ∈ l.map key
        · rw [firstCopies_concat_of_mem hk, firstCopies_concat_of_mem ((hmem hp).mpr hk), ih]
        · rw [firstCopies_concat_of_notMem hk,
            firstCopies_concat_of_notMem fun hc ↦ hk ((hmem hp).mp hc), List.filter_append, ih,
            List.filter_cons_of_pos hp, List.filter_nil]
      · rw [List.filter_cons_of_neg hp, List.filter_nil, List.append_nil, ← ih]
        by_cases hk : key a ∈ l.map key
        · rw [firstCopies_concat_of_mem hk]
        · rw [firstCopies_concat_of_notMem hk, List.filter_append, List.filter_cons_of_neg hp,
            List.filter_nil, List.append_nil]

/-- Where keys are unique, removing the first message with a key removes all of them. -/
theorem eraseP_eq_filter (h : (l.map key).Nodup) (k : κ) :
    l.eraseP (key · = k) = l.filter (key · ≠ k) := by
  induction l with
  | nil => rfl
  | cons a l ih =>
      rw [List.map_cons, List.nodup_cons] at h
      by_cases hk : key a = k
      · have hrest : ∀ b ∈ l, decide (key b ≠ k) = true := fun b hb ↦
          decide_eq_true fun hc ↦ h.1 (List.mem_map.mpr ⟨b, hb, hc.trans hk.symm⟩)
        rw [List.eraseP_cons_of_pos (by simpa using hk),
          List.filter_cons_of_neg (by simpa using hk), List.filter_eq_self.mpr hrest]
      · rw [List.eraseP_cons_of_neg (by simpa using hk),
          List.filter_cons_of_pos (by simpa using hk), ih h.2]

/-! ## Relative order of keys -/

/-- A key that comes before another one occurs. -/
theorem mem_of_idxOf_lt {l : List κ} (h : l.idxOf x < l.idxOf y) : x ∈ l :=
  List.idxOf_lt_length_iff.mp (Nat.lt_of_lt_of_le h List.idxOf_le_length)

/-- How the next element decides which of two keys comes first. -/
theorem idxOf_concat_lt_iff {l : List κ} :
    (l ++ [k]).idxOf x < (l ++ [k]).idxOf y ↔
      l.idxOf x < l.idxOf y ∨ (x ∉ l ∧ y ∉ l ∧ k = x ∧ k ≠ y) := by
  have idxOf_singleton : ∀ z : κ, [k].idxOf z = if k = z then 0 else 1 := fun z ↦ by
    by_cases hz : k = z
    · simp [hz]
    · simp [List.idxOf_cons_ne _ hz, hz]
  by_cases hx : x ∈ l
  · have hlt := List.idxOf_lt_length_iff.mpr hx
    by_cases hy : y ∈ l
    · simp [List.idxOf_append, hx, hy]
    · have := List.idxOf_of_notMem hy
      simp only [List.idxOf_append, hx, hy, if_true, if_false]
      refine ⟨fun _ ↦ .inl (by omega), fun _ ↦ by omega⟩
  · have hxl := List.idxOf_of_notMem hx
    have hle : l.idxOf y ≤ l.length := List.idxOf_le_length
    by_cases hy : y ∈ l
    · have := List.idxOf_lt_length_iff.mpr hy
      simp only [List.idxOf_append, hx, hy, if_true, if_false]
      refine ⟨fun _ ↦ by omega, fun h ↦ ?_⟩
      rcases h with h | ⟨-, h, -⟩
      · omega
      · exact absurd trivial h
    · simp only [List.idxOf_append, hx, hy, if_false, idxOf_singleton, hxl,
        List.idxOf_of_notMem hy]
      by_cases h₁ : k = x <;> by_cases h₂ : k = y <;> grind

/-- The first copies come in the order of first occurrence. -/
theorem idxOf_firstCopies_lt_iff (l : List α) :
    ((firstCopies key l).map key).idxOf x < ((firstCopies key l).map key).idxOf y ↔
      (l.map key).idxOf x < (l.map key).idxOf y := by
  induction l using List.reverseRecOn with
  | nil => simp
  | append_singleton l a ih =>
      rw [List.map_append, List.map_singleton, idxOf_concat_lt_iff, ← ih]
      by_cases h : key a ∈ l.map key
      · rw [firstCopies_concat_of_mem h]
        refine ⟨Or.inl, fun hl ↦ hl.elim id ?_⟩
        rintro ⟨hx, -, rfl, -⟩
        exact absurd h hx
      · rw [firstCopies_concat_of_notMem h, List.map_append, List.map_singleton,
          idxOf_concat_lt_iff, mem_map_firstCopies, mem_map_firstCopies]

theorem not_opposite_of_isPrefix {l₁ l₂ : List κ} (h : l₁ <+: l₂)
    (hx : l₁.idxOf x < l₁.idxOf y) : ¬ l₂.idxOf y < l₂.idxOf x := by
  obtain ⟨t, rfl⟩ := h
  have hmem : x ∈ l₁ := mem_of_idxOf_lt hx
  rw [List.idxOf_append_of_mem hmem]
  by_cases hy : y ∈ l₁
  · rw [List.idxOf_append_of_mem hy]
    omega
  · rw [List.idxOf_append_of_notMem hy]
    have := List.idxOf_lt_length_iff.mpr hmem
    omega

/-- Duplicate-free lists that order no two keys oppositely are comparable: at the
first place where they differ, the two keys found there would be such a pair. -/
theorem isPrefix_or_isPrefix_of_not_opposite {l₁ l₂ : List κ} (h₁ : l₁.Nodup) (h₂ : l₂.Nodup)
    (h : ∀ x y, l₁.idxOf x < l₁.idxOf y → ¬ l₂.idxOf y < l₂.idxOf x) :
    l₁ <+: l₂ ∨ l₂ <+: l₁ := by
  induction l₁ generalizing l₂ with
  | nil => exact .inl List.nil_prefix
  | cons a l₁ ih =>
      cases l₂ with
      | nil => exact .inr List.nil_prefix
      | cons b l₂ =>
          by_cases hab : a = b
          · subst hab
            rw [List.nodup_cons] at h₁ h₂
            simp only [List.cons_prefix_cons, true_and]
            refine ih h₁.2 h₂.2 fun x y hx hy ↦ ?_
            have hxm : x ∈ l₁ := mem_of_idxOf_lt hx
            have hym : y ∈ l₂ := mem_of_idxOf_lt hy
            have hxa : a ≠ x := fun hc ↦ h₁.1 (hc ▸ hxm)
            have hya : a ≠ y := fun hc ↦ h₂.1 (hc ▸ hym)
            refine h x y ?_ ?_
            · rw [List.idxOf_cons_ne _ hxa, List.idxOf_cons_ne _ hya]; omega
            · rw [List.idxOf_cons_ne _ hxa, List.idxOf_cons_ne _ hya]; omega
          · refine absurd ?_ (h a b ?_)
            · rw [List.idxOf_cons_self, List.idxOf_cons_ne _ (Ne.symm hab)]; omega
            · rw [List.idxOf_cons_self, List.idxOf_cons_ne _ hab]; omega

/-- **Comparability of duplicate-free lists.** -/
theorem isPrefix_or_isPrefix_iff {l₁ l₂ : List κ} (h₁ : l₁.Nodup) (h₂ : l₂.Nodup) :
    (l₁ <+: l₂ ∨ l₂ <+: l₁) ↔
      ∀ x y, l₁.idxOf x < l₁.idxOf y → ¬ l₂.idxOf y < l₂.idxOf x := by
  refine ⟨?_, isPrefix_or_isPrefix_of_not_opposite h₁ h₂⟩
  rintro (h | h) x y hx hy
  · exact not_opposite_of_isPrefix h hx hy
  · exact not_opposite_of_isPrefix h hy hx

omit [DecidableEq κ] in
/-- A prefix of keys is a prefix of messages when a key determines its message. -/
theorem isPrefix_of_map_isPrefix (hdet : ∀ a ∈ l, ∀ b ∈ l', key a = key b → a = b)
    (h : l.map key <+: l'.map key) : l <+: l' := by
  induction l generalizing l' with
  | nil => exact List.nil_prefix
  | cons a l ih =>
      cases l' with
      | nil => simp at h
      | cons b l' =>
          rw [List.map_cons, List.map_cons, List.cons_prefix_cons] at h
          rw [hdet a (by simp) b (by simp) h.1, List.cons_prefix_cons]
          exact ⟨rfl, ih (fun a ha b hb ↦ hdet a (by simp [ha]) b (by simp [hb])) h.2⟩

end Distributed
