import Mathlib.Algebra.GroupWithZero.Nat
import Mathlib.Data.List.Basic

/-!
# Labelled machines and their runs

A `Machine` is a deterministic transition system whose events may be disabled:
the scheduler (who acts next, which message arrives next) is the list of events,
so "for every run" is a quantifier over lists.  The two predicates on runs are
`Always`, a property of every state passed through, and `Along`, a property of
every step together with the state it is taken in; the latter is how a side
condition on the environment is stated.
-/

namespace Distributed

/-- A machine with states `σ` and events `ε`; `step s e = none` when the event
`e` cannot happen in `s`. -/
structure Machine (σ ε : Type*) where
  /-- The state after an event, if the event is enabled. -/
  step : σ → ε → Option σ

namespace Machine

variable {σ ε : Type*} (M : Machine σ ε)

/-- The state a sequence of events leads to, if each of them is enabled in turn. -/
def run : σ → List ε → Option σ
  | s, [] => some s
  | s, e :: es => (M.step s e).bind fun s' ↦ run s' es

/-- Every step of the run meets `C` in the state it is taken in. -/
def Along (C : σ → ε → Prop) : σ → List ε → Prop
  | _, [] => True
  | s, e :: es => C s e ∧ ∀ s', M.step s e = some s' → Along C s' es

/-- Every state the run passes through satisfies `P`. -/
def Always (P : σ → Prop) : σ → List ε → Prop
  | s, [] => P s
  | s, e :: es => P s ∧ ∀ s', M.step s e = some s' → Always P s' es

/-- What is observed along a run, in order, up to the first event that is not enabled. -/
def collect {β : Type*} (f : σ → ε → Option β) : σ → List ε → List β
  | _, [] => []
  | s, e :: es => (f s e).toList ++ ((M.step s e).map fun s' ↦ collect f s' es).getD []

instance {C : σ → ε → Prop} [∀ s e, Decidable (C s e)] :
    ∀ (s : σ) (es : List ε), Decidable (M.Along C s es)
  | _, [] => .isTrue trivial
  | s, e :: es =>
      match h : M.step s e with
      | none => decidable_of_iff (C s e) (by simp [Along, h])
      | some t =>
          have : Decidable (M.Along C t es) := instDecidableAlong t es
          decidable_of_iff (C s e ∧ M.Along C t es) (by simp [Along, h])

instance decidableAlways {P : σ → Prop} [DecidablePred P] :
    ∀ (s : σ) (es : List ε), Decidable (M.Always P s es)
  | s, [] => inferInstanceAs (Decidable (P s))
  | s, e :: es =>
      match h : M.step s e with
      | none => decidable_of_iff (P s) (by simp [Always, h])
      | some t =>
          have : Decidable (M.Always P t es) := decidableAlways t es
          decidable_of_iff (P s ∧ M.Always P t es) (by simp [Always, h])

variable {M} {P : σ → Prop} {C D : σ → ε → Prop} {s s' : σ} {e : ε} {es fs : List ε}

@[simp] theorem run_nil : M.run s [] = some s := rfl

theorem run_cons : M.run s (e :: es) = some s' ↔
    ∃ t, M.step s e = some t ∧ M.run t es = some s' := by
  simp [run, Option.bind_eq_some_iff]

theorem run_append : M.run s (es ++ fs) = some s' ↔
    ∃ t, M.run s es = some t ∧ M.run t fs = some s' := by
  induction es generalizing s with
  | nil => simp
  | cons e es ih =>
      simp only [List.cons_append, run_cons, ih]
      constructor
      · rintro ⟨t, ht, u, hu, hf⟩
        exact ⟨u, ⟨t, ht, hu⟩, hf⟩
      · rintro ⟨u, ⟨t, ht, hu⟩, hf⟩
        exact ⟨t, ht, u, hu, hf⟩

/-- An observation is made at a step of the run, in the state that the steps before it lead
to. -/
theorem mem_collect {β : Type*} {f : σ → ε → Option β} {b : β} (h : b ∈ M.collect f s es) :
    ∃ pre e post t, es = pre ++ e :: post ∧ M.run s pre = some t ∧ f t e = some b := by
  induction es generalizing s with
  | nil => cases h
  | cons e es ih =>
      rw [collect, List.mem_append, Option.mem_toList] at h
      rcases h with h | h
      · exact ⟨[], e, es, s, rfl, rfl, h⟩
      · cases hs : M.step s e with
        | none => simp [hs] at h
        | some s' =>
            simp only [hs, Option.map_some, Option.getD_some] at h
            obtain ⟨pre, e', post, t, rfl, hr, hf⟩ := ih h
            exact ⟨e :: pre, e', post, t, rfl, run_cons.mpr ⟨s', hs, hr⟩, hf⟩

theorem Along.mono (h : ∀ s e, C s e → D s e) : M.Along C s es → M.Along D s es := by
  induction es generalizing s with
  | nil => exact fun _ ↦ trivial
  | cons e es ih => exact fun hs ↦ ⟨h s e hs.1, fun s' hs' ↦ ih (hs.2 s' hs')⟩

theorem along_and : M.Along (fun s e ↦ C s e ∧ D s e) s es ↔
    M.Along C s es ∧ M.Along D s es := by
  induction es generalizing s with
  | nil => simp [Along]
  | cons e es ih =>
      simp only [Along, ih]
      exact ⟨fun h ↦ ⟨⟨h.1.1, fun t ht ↦ (h.2 t ht).1⟩, h.1.2, fun t ht ↦ (h.2 t ht).2⟩,
        fun h ↦ ⟨⟨h.1.1, h.2.1⟩, fun t ht ↦ ⟨h.1.2 t ht, h.2.2 t ht⟩⟩⟩

theorem along_true : ∀ (s : σ) (es : List ε), M.Along (fun _ _ ↦ True) s es
  | _, [] => trivial
  | _, _ :: es => ⟨trivial, fun t _ ↦ along_true t es⟩

theorem along_append : M.Along C s (es ++ fs) ↔
    M.Along C s es ∧ ∀ t, M.run s es = some t → M.Along C t fs := by
  induction es generalizing s with
  | nil => simp [Along]
  | cons e es ih =>
      simp only [List.cons_append, Along, run_cons, ih]
      constructor
      · rintro ⟨he, h⟩
        exact ⟨⟨he, fun t ht ↦ (h t ht).1⟩, fun u ⟨t, ht, hu⟩ ↦ (h t ht).2 u hu⟩
      · rintro ⟨⟨he, h⟩, hf⟩
        exact ⟨he, fun t ht ↦ ⟨h t ht, fun u hu ↦ hf u ⟨t, ht, hu⟩⟩⟩

/-- A condition on events alone is checked on the list of events. -/
theorem along_of_forall_mem {E : ε → Prop} (h : ∀ e ∈ es, E e) :
    ∀ s, M.Along (fun _ e ↦ E e) s es := by
  induction es with
  | nil => exact fun _ ↦ trivial
  | cons e es ih =>
      exact fun s ↦ ⟨h e (by simp), fun t _ ↦ ih (fun e he ↦ h e (by simp [he])) t⟩

/-- **The invariant rule.**  What every admissible step preserves holds at the
end of every admissible run. -/
theorem run_invariant (hstep : ∀ s e s', P s → C s e → M.step s e = some s' → P s')
    (h₀ : P s) (hc : M.Along C s es) (hr : M.run s es = some s') : P s' := by
  induction es generalizing s with
  | nil => cases hr; exact h₀
  | cons e es ih =>
      obtain ⟨t, ht, hr⟩ := run_cons.mp hr
      exact ih (hstep s e t h₀ hc.1 ht) (hc.2 t ht) hr

/-- The invariant rule when every enabled step is admissible. -/
theorem run_preserves (hstep : ∀ s e s', P s → M.step s e = some s' → P s')
    (h₀ : P s) (hr : M.run s es = some s') : P s' :=
  run_invariant (fun s e s' hp _ ↦ hstep s e s' hp) h₀ (along_true s es) hr

/-- What every admissible step preserves holds all along an admissible run. -/
theorem always_of_invariant (hstep : ∀ s e s', P s → C s e → M.step s e = some s' → P s')
    (h₀ : P s) (hc : M.Along C s es) : M.Always P s es := by
  induction es generalizing s with
  | nil => exact h₀
  | cons e es ih =>
      exact ⟨h₀, fun t ht ↦ ih (hstep s e t h₀ hc.1 ht) (hc.2 t ht)⟩

theorem Always.mono {Q : σ → Prop} (h : ∀ s, P s → Q s) :
    M.Always P s es → M.Always Q s es := by
  induction es generalizing s with
  | nil => exact h s
  | cons e es ih => exact fun hs ↦ ⟨h s hs.1, fun t ht ↦ ih (hs.2 t ht)⟩

theorem always_and {Q : σ → Prop} : M.Always (fun s ↦ P s ∧ Q s) s es ↔
    M.Always P s es ∧ M.Always Q s es := by
  induction es generalizing s with
  | nil => exact Iff.rfl
  | cons e es ih =>
      simp only [Always, ih]
      constructor
      · rintro ⟨⟨hp, hq⟩, h⟩
        exact ⟨⟨hp, fun t ht ↦ (h t ht).1⟩, hq, fun t ht ↦ (h t ht).2⟩
      · rintro ⟨⟨hp, h⟩, hq, h'⟩
        exact ⟨⟨hp, hq⟩, fun t ht ↦ ⟨h t ht, h' t ht⟩⟩

/-- A property of all states is a condition on all steps. -/
theorem Always.along (h : M.Always P s es) : M.Along (fun s _ ↦ P s) s es := by
  induction es generalizing s with
  | nil => trivial
  | cons e es ih => exact ⟨h.1, fun t ht ↦ ih (h.2 t ht)⟩

/-- What implies another property under an invariant does so all along a run. -/
theorem Always.mono_of_invariant {I Q : σ → Prop}
    (hstep : ∀ s e s', I s → C s e → M.step s e = some s' → I s')
    (hQ : ∀ s, I s → P s → Q s) (h₀ : I s) (hc : M.Along C s es) (h : M.Always P s es) :
    M.Always Q s es :=
  (always_and.mpr ⟨always_of_invariant hstep h₀ hc, h⟩).mono fun s h ↦ hQ s h.1 h.2

theorem Always.head (h : M.Always P s es) : P s := by
  cases es with
  | nil => exact h
  | cons e es => exact h.1

/-- What can be seen of a step from the state it leads to holds at every step of a run whose
states are all as they should be. -/
theorem along_of_always {I : σ → Prop}
    (hstep : ∀ s e s', I s → C s e → M.step s e = some s' → I s')
    (hD : ∀ s e, I s → (∀ s', M.step s e = some s' → P s') → D s e) (h₀ : I s)
    (hc : M.Along C s es) (h : M.Always P s es) : M.Along D s es := by
  induction es generalizing s with
  | nil => trivial
  | cons e es ih =>
      exact ⟨hD s e h₀ fun t ht ↦ (h.2 t ht).head,
        fun t ht ↦ ih (hstep s e t h₀ hc.1 ht) (hc.2 t ht) (h.2 t ht)⟩

/-- A property of steps that follows from an invariant holds at every step. -/
theorem along_of_invariant (hstep : ∀ s e s', P s → C s e → M.step s e = some s' → P s')
    (hD : ∀ s e, P s → C s e → D s e) (h₀ : P s) (hc : M.Along C s es) :
    M.Along D s es := by
  induction es generalizing s with
  | nil => trivial
  | cons e es ih =>
      exact ⟨hD s e h₀ hc.1, fun t ht ↦ ih (hstep s e t h₀ hc.1 ht) (hc.2 t ht)⟩

/-- **The simulation rule.**  If every admissible step of a machine can be matched by a run of
another, perhaps an empty one, then so can every admissible run. -/
theorem run_simulation {σ' ε' : Type*} {N : Machine σ' ε'} {R : σ → σ' → Prop} {D : ε' → Prop}
    (hstep : ∀ s e s' t, R s t → C s e → M.step s e = some s' →
      ∃ fs t', N.run t fs = some t' ∧ (∀ f ∈ fs, D f) ∧ R s' t')
    {t : σ'} (h₀ : R s t) (hc : M.Along C s es) (hr : M.run s es = some s') :
    ∃ fs t', N.run t fs = some t' ∧ (∀ f ∈ fs, D f) ∧ R s' t' := by
  induction es generalizing s t with
  | nil =>
      cases hr
      exact ⟨[], t, rfl, by simp, h₀⟩
  | cons e es ih =>
      obtain ⟨u, hu, hr⟩ := run_cons.mp hr
      obtain ⟨fs, t', hfs, hD, hR⟩ := hstep s e u t h₀ hc.1 hu
      obtain ⟨gs, t'', hgs, hD', hR'⟩ := ih hR (hc.2 u hu) hr
      exact ⟨fs ++ gs, t'', run_append.mpr ⟨t', hfs, hgs⟩, List.forall_mem_append.mpr ⟨hD, hD'⟩,
        hR'⟩

end Machine

/-! ## Small groups -/

/-- Shortcuts, by which the members of small groups are numbered alike in all modules. -/
instance neZero_two : NeZero 2 := inferInstance

instance neZero_three : NeZero 3 := inferInstance

instance neZero_four : NeZero 4 := inferInstance

end Distributed
