import Mathlib.Data.List.Basic

/-!
# Programs that must not fail

Rules for programs in the exception monad that are to be shown never to raise an
exception: `Returns x P` says that `x` returns a value, and that the value satisfies
`P`.  There is one rule for each way of composing programs; the rules for loops carry an
invariant, which may speak of the counter where the loop has one.
-/

universe u v w

namespace Program

variable {ε : Type v} {α β : Type u} {γ : Type w}

/-- The program returns, with a value that satisfies `P`. -/
def Returns (x : Except ε α) (P : α → Prop) : Prop := ∃ a, x = .ok a ∧ P a

variable {x : Except ε α} {a : α} {P Q : α → Prop} {R : β → Prop} {f : α → Except ε β}

@[simp] theorem returns_ok : Returns (.ok a : Except ε α) P ↔ P a :=
  ⟨fun ⟨_, heq, h⟩ ↦ Except.ok.inj heq ▸ h, fun h ↦ ⟨a, rfl, h⟩⟩

@[simp] theorem returns_pure : Returns (pure a : Except ε α) P ↔ P a := returns_ok

/-- The rule of consequence. -/
theorem Returns.mono (hx : Returns x P) (h : ∀ a, P a → Q a) : Returns x Q :=
  let ⟨a, heq, ha⟩ := hx
  ⟨a, heq, h a ha⟩

/-- The rule of sequence. -/
theorem Returns.bind (hx : Returns x P) (h : ∀ a, P a → Returns (f a) R) :
    Returns (x >>= f) R := by
  obtain ⟨a, rfl, ha⟩ := hx
  exact h a ha

theorem Returns.and (hx : Returns x P) (hx' : Returns x Q) : Returns x fun a ↦ P a ∧ Q a := by
  obtain ⟨a, rfl, ha⟩ := hx
  exact returns_ok.mpr ⟨ha, returns_ok.mp hx'⟩

/-- The rule of iteration over a list. -/
theorem returns_foldlM {f : β → γ → Except ε β} {l : List γ} {b : β} {I : β → Prop}
    (hstep : ∀ c ∈ l, ∀ b, I b → Returns (f b c) I) (h₀ : I b) : Returns (l.foldlM f b) I := by
  induction l generalizing b with
  | nil => exact returns_pure.mpr h₀
  | cons c l ih =>
      rw [List.foldlM_cons]
      refine (hstep c List.mem_cons_self b h₀).bind fun b' hb' ↦ ?_
      exact ih (fun c' hc' ↦ hstep c' (List.mem_cons_of_mem _ hc')) hb'

/-- The rule of counting: the invariant speaks of the counter. -/
theorem returns_foldlM_range' {f : β → ℕ → Except ε β} {s n : ℕ} {b : β} {I : ℕ → β → Prop}
    (hstep : ∀ k, s ≤ k → k < s + n → ∀ b, I k b → Returns (f b k) (I (k + 1)))
    (h₀ : I s b) : Returns ((List.range' s n).foldlM f b) (I (s + n)) := by
  induction n generalizing s b with
  | zero => exact returns_pure.mpr h₀
  | succ n ih =>
      rw [List.range'_succ, List.foldlM_cons]
      refine (hstep s (Nat.le_refl _) (by omega) b h₀).bind fun b' hb' ↦ ?_
      have hlen : s + (n + 1) = s + 1 + n := by omega
      rw [hlen]
      exact ih (fun k hk hk' ↦ hstep k (by omega) (by omega)) hb'

end Program
